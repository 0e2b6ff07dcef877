import NachOS.MipsFaults
import NachOS.ExceptionHandler

/-! Runs of the processor under the kernel: instructions, exceptions and the kernel's answers
to them, interrupts, and switches between threads.  Register 0 stays zero, a load that is
pending has a general register as its target, and the simulator does not fail. -/
namespace NachOS
namespace Hardware

open StateMachine hiding Machine
open Memory Machine

/-! What an instruction leaves in the registers. -/

namespace Machine

theorem RegistersOk.update {f : ℕ → BitVec 32} (h : RegistersOk f) {i : ℕ} (hzero : i ≠ 0)
    (hload : i ≠ LoadReg) (v : BitVec 32) : RegistersOk (Function.update f i v) where
  zero := (Function.update_of_ne hzero.symm _ _).trans h.zero
  load := by
    rw [Function.update_of_ne hload.symm]
    exact h.load

/-- `DelayedLoad` sets the two registers right, whatever was in them. -/
theorem loaded_ok (f : ℕ → BitVec 32) {nextReg : ℕ} (h : nextReg < NumGPRegs) (v : BitVec 32) :
    RegistersOk (loaded f nextReg v) where
  zero := Function.update_self _ _ _
  load := by
    have hload : loaded f nextReg v LoadReg = BitVec.ofNat 32 nextReg := rfl
    rw [hload,BitVec.toNat_ofNat]
    exact (Nat.mod_le _ _).trans_lt h

theorem finished_ok (f : ℕ → BitVec 32) {next : ℕ} (h : next < NumGPRegs) (v pcAfter : BitVec 32) :
    RegistersOk (finished f next v pcAfter) :=
  (((loaded_ok f h v).update (by decide) (by decide) _).update (by decide) (by decide) _).update
    (by decide) (by decide) _

theorem written_of_notMem {f : ℕ → BitVec 32} {ws : List (ℕ × BitVec 32)} {i : ℕ}
    (h : ∀ w ∈ ws, w.1 ≠ i) : written f ws i = f i := by
  induction ws generalizing f with
  | nil => rfl
  | cons w ws ih =>
    have hw : i ≠ w.1 := (h w List.mem_cons_self).symm
    have hrest := ih (f := Function.update f w.1 w.2) fun x hx => h x (List.mem_cons_of_mem w hx)
    exact hrest.trans (Function.update_of_ne hw _ _)

theorem written_of_le {f : ℕ → BitVec 32} {ws : List (ℕ × BitVec 32)} {i : ℕ}
    (hws : ∀ w ∈ ws, w.1 < PCReg) (hi : PCReg ≤ i) : written f ws i = f i :=
  written_of_notMem fun w hw => ((hws w hw).trans_le hi).ne

end Machine

theorem Effect.writes_lt {e : Effect} (h : e.Ok) : ∀ w ∈ e.writes, w.1 < PCReg := by
  cases e with
  | write ws pc => exact h
  | load | store | modify | raise | divide => exact fun w hw => absurd hw List.not_mem_nil

/-- Only the signed division stops the simulator. -/
theorem Operands.effect_divide {o : Operands} {instr : Instruction}
    (h : o.effect instr = .divide) : instr.opCode = .OP_DIV ∧ DivideTraps o.rs o.rt := by
  unfold effect at h
  cases hop : instr.opCode with
  | OP_DIV =>
    simp only [hop] at h
    split at h
    · next htraps => exact ⟨rfl,htraps⟩
    · cases h
  | OP_ADD | OP_ADDI | OP_SUB =>
    simp only [hop,trapping] at h
    split at h <;> cases h
  | _ =>
    simp only [hop] at h
    cases h

namespace Machine

/-- The instruction at the program counter is a signed division whose quotient has no
representation. -/
def DividesByMinusOne (m : Machine) : Prop :=
  ∃ instr, m.Fetches instr ∧ instr.opCode = .OP_DIV ∧
    DivideTraps (m.registers instr.rs) (m.registers instr.rt)

/-- Every instruction completes or raises an exception, the division that traps on the host
apart. -/
theorem OneInstruction_ok {m : Machine} (hset : m.translation.isSet = true)
    (hm : (m.registers LoadReg).toNat < NumTotalRegs) :
    (∃ m', m.OneInstruction = .ok m' ∧ RegistersOk m'.registers) ∨
    (∃ which m', m.OneInstruction = .error (.exception which m') ∧ RegistersOk m'.registers) ∨
    (m.OneInstruction = .error .divide ∧ DividesByMinusOne m) := by
  rcases OneInstruction_cases hset with
    ⟨which,badVAddr,t,_,hraise⟩ | ⟨instr,hfetch,⟨b,t,next,v,pc,hnext,_,hdone⟩ | ⟨he,hdivide⟩⟩
  · have hrun := (hraise _ (.refl m)).trans
      (RaiseException_eq (m := { m with translation := t }) hm which badVAddr)
    exact Or.inr (Or.inl ⟨which,_,hrun,loaded_ok _ (by decide) _⟩)
  · obtain ⟨_,hrt,hrd⟩ := hfetch.registers_lt
    have hnext : next < NumGPRegs := by
      rcases hnext with rfl | ⟨rfl,_⟩
      · decide
      · exact hrt
    have hload : (written m.registers ((operands m instr).effect instr).writes LoadReg).toNat <
        NumTotalRegs := by
      rw [written_of_le (Effect.writes_lt ((operands m instr).effect_ok hrt hrd)) (by decide)]
      exact hm
    have hrun := (hdone _ (.refl m)).trans (finish_eq hload)
    exact Or.inl ⟨_,hrun,finished_ok _ hnext v pc⟩
  · exact Or.inr (Or.inr ⟨hdivide _ (.refl m),instr,hfetch,Operands.effect_divide he⟩)

end Machine

/-! Runs. -/

/-- The processor and what `SaveUserState` stored for the threads. -/
structure Cpu (Thread : Type) where
  machine : Machine
  saved : Thread → Option UserRegisters

/-- What happens to the processor, in any order.  `write` is a register that the kernel sets
while it answers a system call; `memory` and `map` are what the kernel does to main memory
and to the page table. -/
inductive Event (Thread : Type)
  | instruction
  | interrupt
  | write (num : ℕ) (value : BitVec 32)
  | memory (mainMemory : Buffer)
  | map (translation : Translation)
  | start (space : AddrSpace)
  | save (t : Thread)
  | restore (t : Thread)

namespace Cpu

variable {Thread : Type}

/-- The registers that the kernel writes: the result and the program counters. -/
def kernelRegisters : List ℕ := [2,PrevPCReg,PCReg,NextPCReg]

/-- The machine is not left in a state between instructions if the host's division traps. -/
def instruction (m : Machine) : Except Fault Machine :=
  match m.OneInstruction with
  | .ok m' => .ok m'
  | .error (.exception _ m') => .ok m'
  | .error .divide => .error .halted
  | .error (.fault f) => .error f

def interrupt (m : Machine) : Except Fault Machine :=
  match m.DelayedLoad 0 0#32 with
  | .ok m' => .ok m'
  | .error (.fault f) => .error f
  | .error _ => .error .halted

def step [DecidableEq Thread] (c : Cpu Thread) : Event Thread → Except Fault (Cpu Thread)
  | .instruction => do
    -- `Machine::Run` is called after `RestoreState` only
    require (c.machine.translation.isSet = true)
    let m ← instruction c.machine
    return { c with machine := m }
  | .interrupt => do
    let m ← interrupt c.machine
    return { c with machine := m }
  | .write num value => do
    require (num ∈ kernelRegisters)
    let m ← c.machine.WriteRegister num value
    return { c with machine := m }
  | .memory mainMemory => return { c with machine := { c.machine with mainMemory := mainMemory } }
  | .map translation => return { c with machine := { c.machine with translation := translation } }
  | .start space => return { c with machine := space.RestoreState (space.InitRegisters c.machine) }
  | .save t =>
    return { c with saved := Function.update c.saved t (SaveUserState c.machine.registers) }
  | .restore t =>
    match c.saved t with
    | none => .error .blocked
    | some u =>
      let registers := RestoreUserState u c.machine.registers
      return { c with machine := { c.machine with registers := registers } }

/-- `Machine::Machine`: all registers are zero. -/
def runs (Thread : Type) [DecidableEq Thread] : StateMachine.Machine (Cpu Thread) (Event Thread) where
  initial := fun c =>
    (∀ i < NumTotalRegs, c.machine.registers i = 0#32) ∧ ∀ t, c.saved t = none
  step := step

structure Inv (c : Cpu Thread) : Prop where
  registers : RegistersOk c.machine.registers
  saved : ∀ t u f, c.saved t = some u → RegistersOk (RestoreUserState u f)

theorem inv_initial [DecidableEq Thread] {c : Cpu Thread} (h : (runs Thread).initial c) : Inv c where
  registers := by
    refine ⟨h.1 0 (by decide),?_⟩
    rw [h.1 LoadReg (by decide)]
    decide
  saved := fun t u f hu => by
    rw [h.2 t] at hu
    cases hu

theorem Inv.machine {c : Cpu Thread} (hc : Inv c) {m : Machine} (hm : RegistersOk m.registers) :
    Inv { c with machine := m } := ⟨hm,hc.saved⟩

theorem instruction_ok {m m' : Machine} (hset : m.translation.isSet = true)
    (hm : RegistersOk m.registers) (h : instruction m = .ok m') : RegistersOk m'.registers := by
  unfold instruction at h
  rcases OneInstruction_ok hset (hm.load.trans (by decide)) with
    ⟨m₁,h₁,hok⟩ | ⟨which,m₁,h₁,hok⟩ | ⟨h₁,_⟩
  · rw [h₁] at h
    cases h
    exact hok
  · rw [h₁] at h
    cases h
    exact hok
  · rw [h₁] at h
    cases h

theorem interrupt_eq {m : Machine} (hm : RegistersOk m.registers) :
    interrupt m = .ok { m with registers := loaded m.registers 0 0#32 } := by
  unfold interrupt
  rw [DelayedLoad_eq (hm.load.trans (by decide))]

theorem kernelRegisters_ne : ∀ num ∈ kernelRegisters, num ≠ 0 ∧ num ≠ LoadReg := by decide

theorem InitRegisters_ok (space : AddrSpace) (m : Machine) :
    RegistersOk (space.InitRegisters m).registers where
  zero := rfl
  load := by
    have hload : (space.InitRegisters m).registers LoadReg = 0#32 := rfl
    rw [hload]
    decide

theorem restore_save_ok {f : ℕ → BitVec 32} (h : RegistersOk f) (g : ℕ → BitVec 32) :
    RegistersOk (RestoreUserState (SaveUserState f) g) where
  zero := (RestoreUserState_of_lt _ _ (by decide)).trans h.zero
  load := by
    rw [RestoreUserState_of_lt _ _ (show LoadReg < NumTotalRegs by decide)]
    exact h.load

variable [DecidableEq Thread]

theorem inv_step {c c' : Cpu Thread} {e : Event Thread} (hc : Inv c) (h : step c e = .ok c') :
    Inv c' := by
  cases e with
  | instruction =>
    obtain ⟨hset,h⟩ := require_bind_ok.mp h
    obtain ⟨m,hm,h⟩ := bind_ok.mp h
    cases h
    exact hc.machine (instruction_ok hset hc.registers hm)
  | interrupt =>
    obtain ⟨m,hm,h⟩ := bind_ok.mp h
    cases h
    rw [interrupt_eq hc.registers] at hm
    cases hm
    exact hc.machine (loaded_ok _ (by decide) _)
  | write num value =>
    obtain ⟨hnum,h⟩ := require_bind_ok.mp h
    obtain ⟨m,hm,h⟩ := bind_ok.mp h
    cases h
    obtain ⟨_,hm⟩ := check_bind_ok.mp hm
    cases hm
    obtain ⟨hzero,hload⟩ := kernelRegisters_ne num hnum
    exact hc.machine (hc.registers.update hzero hload value)
  | memory mainMemory =>
    cases h
    exact hc.machine hc.registers
  | map translation =>
    cases h
    exact hc.machine hc.registers
  | start space =>
    cases h
    exact hc.machine (InitRegisters_ok space c.machine)
  | save t =>
    cases h
    refine ⟨hc.registers,fun t' u f hu => ?_⟩
    simp only [Function.update_apply] at hu
    split at hu
    · cases hu
      exact restore_save_ok hc.registers f
    · exact hc.saved t' u f hu
  | restore t =>
    simp only [step] at h
    split at h
    · cases h
    · next u hu =>
      cases h
      exact hc.machine (hc.saved t u c.machine.registers hu)

theorem reachable_inv {c : Cpu Thread} (h : (runs Thread).Reachable c) : Inv c :=
  h.invariant (fun _ => inv_initial) fun _ _ _ => inv_step

/-- No user program breaks the interpreter.  Every word is an instruction with a case of its
own; in whatever state of a run, the next instruction completes, raises an exception, or is
the division that traps on the host, and an interrupt is taken, each time with register 0
zero and a general register as the target of the pending load. -/
theorem interpreter_safe {c : Cpu Thread} (h : (runs Thread).Reachable c) :
    (∀ raw, (Instruction.Decode raw).opCode.HasCase) ∧ RegistersOk c.machine.registers ∧
    (c.machine.translation.isSet = true →
      (∃ m, c.machine.OneInstruction = .ok m ∧ RegistersOk m.registers) ∨
      (∃ which m, c.machine.OneInstruction = .error (.exception which m) ∧
        RegistersOk m.registers) ∨
      (c.machine.OneInstruction = .error .divide ∧ DividesByMinusOne c.machine)) ∧
    ∃ m, c.machine.DelayedLoad 0 0#32 = .ok m ∧ RegistersOk m.registers := by
  have hc := (reachable_inv h).registers
  have hload : (c.machine.registers LoadReg).toNat < NumTotalRegs := hc.load.trans (by decide)
  refine ⟨Instruction.decode_hasCase,hc,fun hset => OneInstruction_ok hset hload,?_⟩
  exact ⟨_,DelayedLoad_eq hload 0 0#32,loaded_ok _ (by decide) _⟩

/-- A processor on which `lw $3,0($0)` is the first instruction. -/
def loadingCpu : Cpu Unit :=
  ⟨{ pendingLoad 0x8c030000#32 with registers := fun _ => 0#32 },fun _ => none⟩

theorem interpreter_safe_lw : ∃ c : Cpu Unit, (runs Unit).Reachable c ∧
    c.machine.registers LoadReg = 3#32 ∧ RegistersOk c.machine.registers := by
  have hstart : (runs Unit).Reachable loadingCpu := .start ⟨fun _ _ => rfl,fun _ => rfl⟩
  have hrun : ∃ c, (runs Unit).run loadingCpu [.instruction] = .ok c ∧
      c.machine.registers LoadReg = 3#32 := by
    refine ⟨_,rfl,?_⟩
    rfl
  obtain ⟨c,hc,hload⟩ := hrun
  exact ⟨c,hstart.run hc,hload,(interpreter_safe (hstart.run hc)).2.1⟩

/-! The kernel's answer to an exception is a part of such a run. -/

theorem mem_syscallCases : ∀ x ∈ Kernel.syscallCases,
    (∃ c f, x = Kernel.answered c f) ∨ (∃ c, x = Kernel.unanswered c) ∨
      x.body = [.run (Kernel.call .halt),.run Kernel.ASSERTNOTREACHED,.brk] := by
  unfold Kernel.syscallCases
  rw [List.forall_mem_cons]
  repeat rw [List.forall_mem_cons]
  and_intros
  all_goals first
    | exact Or.inl ⟨_,_,rfl⟩
    | exact Or.inr (Or.inl ⟨_,rfl⟩)
    | exact Or.inr (Or.inr rfl)
    | exact fun x hx => absurd hx List.not_mem_nil

/-- The statements of the `switch` write no other register. -/
def Unwritten (k k' : Kernel) : Prop :=
  ∀ i, i ∉ kernelRegisters → k'.machine.registers i = k.machine.registers i

theorem unwritten_call {k k₁ k₂ : Kernel} {f : Handler} (h : Unwritten k k₁)
    (hcall : Kernel.call f k₁ = .ok k₂) : Unwritten k k₂ := by
  intro i hi
  have hne : i ≠ 2 := fun he => hi (he ▸ List.mem_cons_self)
  exact ((Kernel.Answers.of_handle hcall).registers i hne).trans (h i hi)

theorem unwritten_advance {k k₁ k₂ : Kernel} (h : Unwritten k k₁)
    (hadvance : k₁.ProcessPCRegister = .ok k₂) : Unwritten k k₂ := by
  rw [Kernel.ProcessPCRegister_eq] at hadvance
  cases hadvance
  intro i hi
  have hadvance := h i hi
  simp only [kernelRegisters,List.mem_cons,List.not_mem_nil,or_false,not_or] at hi
  obtain ⟨_,hprev,hpc,hnext⟩ := hi
  refine Eq.trans ?_ hadvance
  simp only [Kernel.advance,Kernel.setRegister_registers,Function.update_of_ne hnext,
    Function.update_of_ne hpc,Function.update_of_ne hprev]

theorem ExceptionHandler_unwritten {k k' : Kernel} {which : ExceptionType}
    (h : k.ExceptionHandler which = .ok k') : Unwritten k k' := by
  by_cases hsyscall : which = .syscallException
  · subst hsyscall
    rw [Kernel.ExceptionHandler_syscall] at h
    obtain ⟨⟨returned,k₁⟩,hexec,h⟩ := bind_ok.mp h
    have hk₁ : Unwritten k k₁ := by
      refine Switch.exec_preserves (P := Unwritten k) (fun f hf k₂ k₃ hk₂ hrun => ?_)
        (fun _ _ => rfl) hexec
      rcases Switch.mem_entry hf with hf | ⟨x,hx,hf⟩
      · simp only [List.mem_singleton,reduceCtorEq] at hf
      · rcases mem_syscallCases x hx with ⟨c,g,rfl⟩ | ⟨c,rfl⟩ | hbody
        · simp only [Kernel.answered,List.mem_append,List.mem_cons,Switch.Stmt.run.injEq,
            List.not_mem_nil,reduceCtorEq,or_false] at hf
          rcases hf with rfl | rfl
          · exact unwritten_call hk₂ hrun
          · exact unwritten_advance hk₂ hrun
        · simp only [Kernel.unanswered,List.mem_singleton,Switch.Stmt.run.injEq] at hf
          subst hf
          exact unwritten_advance hk₂ hrun
        · rw [hbody] at hf
          simp only [List.mem_cons,Switch.Stmt.run.injEq,List.not_mem_nil,reduceCtorEq,
            or_false] at hf
          rcases hf with rfl | rfl
          · exact unwritten_call hk₂ hrun
          · cases hrun
    split at h
    · cases h
      exact hk₁
    · cases h
  · unfold Kernel.ExceptionHandler at h
    obtain ⟨_,_,h⟩ := bind_ok.mp h
    cases which with
    | noException =>
      cases h
      exact fun _ _ => rfl
    | syscallException => exact absurd rfl hsyscall
    | _ => cases h

/-- The events that stand for the kernel's answer. -/
def answer (m : Machine) : List (Event Thread) :=
  kernelRegisters.map (fun i => .write i (m.registers i)) ++
    [.memory m.mainMemory,.map m.translation]

theorem ExceptionHandler_run {k k' : Kernel} {which : ExceptionType}
    (h : k.ExceptionHandler which = .ok k') (saved : Thread → Option UserRegisters) :
    (runs Thread).run ⟨k.machine,saved⟩ (answer k'.machine) = .ok ⟨k'.machine,saved⟩ := by
  have hregisters : Function.update (Function.update (Function.update (Function.update
      k.machine.registers 2 (k'.machine.registers 2)) PrevPCReg (k'.machine.registers PrevPCReg))
        PCReg (k'.machine.registers PCReg)) NextPCReg (k'.machine.registers NextPCReg) =
      k'.machine.registers := by
    funext i
    by_cases hi : i ∈ kernelRegisters
    · simp only [kernelRegisters,List.mem_cons,List.not_mem_nil,or_false] at hi
      rcases hi with rfl | rfl | rfl | rfl <;> rfl
    · have hkept := ExceptionHandler_unwritten h i hi
      simp only [kernelRegisters,List.mem_cons,List.not_mem_nil,or_false,not_or] at hi
      obtain ⟨htwo,hprev,hpc,hnext⟩ := hi
      rw [Function.update_of_ne hnext,Function.update_of_ne hpc,Function.update_of_ne hprev,
        Function.update_of_ne htwo,hkept]
  have hrun : (runs Thread).run ⟨k.machine,saved⟩ (answer k'.machine) =
      .ok ⟨⟨_,k'.machine.mainMemory,k'.machine.translation⟩,saved⟩ := rfl
  rw [hrun,hregisters]

end Cpu
end Hardware
end NachOS
