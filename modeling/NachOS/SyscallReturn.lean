import NachOS.MipsArithmetic

/-! Where a user program goes on after a system call.  The processor keeps two program counters,
so that the instruction after a branch is executed before the branch takes effect; the kernel
computes both from the first. -/
namespace NachOS

open OpCode

/-- Branches and jumps. -/
def OpCode.transfersControl : OpCode → Bool
  | OP_BEQ | OP_BGEZ | OP_BGEZAL | OP_BGTZ | OP_BLEZ | OP_BLTZ | OP_BLTZAL | OP_BNE | OP_J | OP_JAL
  | OP_JALR | OP_JR => true
  | _ => false

namespace Hardware

open StateMachine hiding Machine
open Machine

/-- The program counters after an instruction that does not branch. -/
def Resumes (f f' : ℕ → BitVec 32) : Prop :=
  f' PrevPCReg = f PCReg ∧ f' PCReg = f NextPCReg ∧ f' NextPCReg = f NextPCReg + 4#32

/-- The instruction after the next one is the one that follows it in memory. -/
def Effect.Sequential (nextPC : BitVec 32) : Effect → Prop
  | .write _ pcAfter => pcAfter = nextPC + 4#32
  | _ => True

theorem Operands.effect_sequential (o : Operands) {instr : Instruction}
    (h : instr.opCode.transfersControl = false) : (o.effect instr).Sequential o.nextPC := by
  unfold effect
  cases hop : instr.opCode with
  | OP_BEQ | OP_BGEZ | OP_BGEZAL | OP_BGTZ | OP_BLEZ | OP_BLTZ | OP_BLTZAL | OP_BNE | OP_J | OP_JAL
    | OP_JALR | OP_JR => exact absurd (hop ▸ h) (by decide)
  | OP_ADD | OP_ADDI | OP_SUB =>
    simp only [trapping]
    split
    · trivial
    · rfl
  | OP_DIV =>
    simp only
    split
    · trivial
    · rfl
  | OP_LB | OP_LBU | OP_LH | OP_LHU | OP_LW | OP_LWL | OP_LWR | OP_SB | OP_SH | OP_SW | OP_SWL
    | OP_SWR | OP_SYSCALL | OP_RES | OP_UNIMP | OP_RFE | SPECIAL | BCOND => trivial
  | _ => rfl

namespace Machine

variable {m m' : Machine} {instr : Instruction}

/-- Writing memory changes no register. -/
theorem writeMem_frame {addr value : BitVec 32} {size : ℕ}
    (h : m.writeMem addr size value = .ok m') : m'.registers = m.registers := by
  unfold writeMem at h
  cases hwrite : m.WriteMem addr size value.toInt with
  | error f =>
    rw [hwrite] at h
    cases h
  | ok r =>
    rw [hwrite] at h
    cases r with
    | error e =>
      obtain ⟨trap,hraise⟩ := m.RaiseException_error e addr
      cases (hraise _).symm.trans h
    | ok m₁ =>
      cases h
      obtain ⟨r,ht,hwrite⟩ := bind_ok.mp hwrite
      cases r with
      | error e => cases hwrite
      | ok r =>
        obtain ⟨p,m₂⟩ := r
        obtain ⟨i,_,rfl⟩ := physical_of_access ht
        simp only at hwrite
        split_ifs at hwrite
        cases hwrite
        rfl

theorem apply_sequential {rt : ℕ} {e : Effect} {next : Next} (h : m.apply rt e = .ok next)
    (hseq : e.Sequential (m.registers NextPCReg)) :
    next.machine.registers = written m.registers e.writes ∧
      next.pcAfter = m.registers NextPCReg + 4#32 := by
  cases e with
  | write ws pc =>
    cases h
    exact ⟨rfl,hseq⟩
  | load addr size value =>
    obtain ⟨⟨v,m₁⟩,hread,h⟩ := bind_ok.mp h
    cases h
    exact ⟨(readMem_frame hread).1,rfl⟩
  | store addr size value =>
    obtain ⟨m₁,hwrite,h⟩ := bind_ok.mp h
    cases h
    exact ⟨writeMem_frame hwrite,rfl⟩
  | modify addr value =>
    obtain ⟨⟨v,m₁⟩,hread,h⟩ := bind_ok.mp h
    obtain ⟨m₂,hwrite,h⟩ := bind_ok.mp h
    cases h
    exact ⟨(writeMem_frame hwrite).trans (readMem_frame hread).1,rfl⟩
  | raise which =>
    obtain ⟨trap,hraise⟩ := m.RaiseException_error which 0#32
    cases (hraise _).symm.trans h
  | divide => cases h

/-- The program counters, which no load has as its target. -/
theorem finished_counters {f : ℕ → BitVec 32} (hload : (f LoadReg).toNat < NumGPRegs) (next : ℕ)
    (v pc : BitVec 32) : finished f next v pc PrevPCReg = f PCReg ∧
      finished f next v pc PCReg = f NextPCReg ∧ finished f next v pc NextPCReg = pc := by
  have hprev : finished f next v pc PrevPCReg = loaded f next v PCReg := rfl
  have hpc : finished f next v pc PCReg = loaded f next v NextPCReg := rfl
  rw [hprev,hpc,loaded_of_le hload (by decide) (by decide),
    loaded_of_le hload (by decide) (by decide)]
  exact ⟨rfl,rfl,rfl⟩

/-- Every instruction that does not branch goes on where the second program counter says. -/
theorem sequential_resumes (hload : (m.registers LoadReg).toNat < NumGPRegs)
    (hfetch : m.Fetches instr) (hop : instr.opCode.transfersControl = false)
    (h : m.OneInstruction = .ok m') : Resumes m.registers m'.registers := by
  obtain ⟨_,hrt,hrd⟩ := hfetch.registers_lt
  have hws := Effect.writes_lt ((operands m instr).effect_ok hrt hrd)
  obtain ⟨t,_,hone⟩ := OneInstruction_effect hfetch
  obtain ⟨next,happly,hfinish⟩ := bind_ok.mp (hone.symm.trans h)
  obtain ⟨hregisters,hpc⟩ := apply_sequential happly ((operands m instr).effect_sequential hop)
  have hkept : ∀ i, PCReg ≤ i → next.machine.registers i = m.registers i := fun i hi =>
    (congrFun hregisters i).trans (written_of_le hws hi)
  have hpending : (next.machine.registers LoadReg).toNat < NumGPRegs := by
    rw [hkept LoadReg (by decide)]
    exact hload
  rw [finish_eq (hpending.trans (by decide))] at hfinish
  cases hfinish
  obtain ⟨hprev,hnow,hnext⟩ := finished_counters hpending next.nextLoadReg next.nextLoadValue
    next.pcAfter
  rw [hkept PCReg (by decide)] at hprev
  rw [hkept NextPCReg (by decide)] at hnow
  exact ⟨hprev,hnow,hnext.trans hpc⟩

end Machine
end Hardware

namespace Kernel

open StateMachine hiding Machine
open Hardware Machine

/-- The code of the system call: the load that is pending goes first. -/
def syscallCode (m : Machine) : ℤ := (loaded m.registers 0 0#32 2).toInt

theorem PCReg_advance (k : Kernel) (n : ℕ) :
    (advance^[n] k).machine.registers PCReg =
      k.machine.registers PCReg + BitVec.ofNat 32 (4 * n) := by
  induction n with
  | zero => simp
  | succ n ih =>
    rw [Function.iterate_succ_apply',(advancedOnce_advance _).2.1,ih,BitVec.add_assoc,Nat.mul_succ,
      BitVec.ofNat_add]
    rfl

/-- The codes without a handler are passed by, and control runs on into Create or into Halt. -/
theorem unanswered_codes : ∀ c ∈ systemCalls, handlerOf c = none →
    (∃ n : ℕ, n < 3 ∧ c = 3 - n) ∨ ∃ n : ℕ, n < 5 ∧ c = 15 - n := by
  decide

/-- A system call that has no handler of its own does not return, or goes on too far. -/
theorem PrevPC_of_unanswered {k k' : Kernel}
    (hnone : handlerOf (k.machine.registers 2).toInt = none)
    (h : k.ExceptionHandler .syscallException = .ok k') :
    k'.machine.registers PrevPCReg ≠ k.machine.registers PCReg := by
  by_cases hc : (k.machine.registers 2).toInt ∈ systemCalls
  · rcases unanswered_codes _ hc hnone with ⟨n,hn,hc⟩ | ⟨n,hn,hc⟩
    · rw [ExceptionHandler_before_create hn hc] at h
      obtain ⟨hprev,_,_⟩ := (executed_of_call h).2
      rw [hprev,PCReg_advance]
      intro heq
      bv_omega
    · cases (ExceptionHandler_before_halt hn hc).symm.trans h
  · cases (ExceptionHandler_unknown hc).2.symm.trans h

/-- A system call goes on where the second program counter says just if that is the next
instruction in memory and the call has a handler. -/
theorem syscall_resumes_iff {m : Machine} (hload : (m.registers LoadReg).toNat < NumGPRegs) :
    (∀ instr m', m.Fetches instr → instr.opCode.transfersControl = false →
      m.OneInstruction = .ok m' → Resumes m.registers m'.registers) ∧
    ∀ instr, m.Fetches instr → instr.opCode = .OP_SYSCALL →
      ∃ m', m.OneInstruction = .error (.exception .syscallException m') ∧
      ∀ k k' : Kernel, k.machine = m' → k.ExceptionHandler .syscallException = .ok k' →
        (Resumes m.registers k'.machine.registers ↔
          m.registers NextPCReg = m.registers PCReg + 4#32 ∧
            (handlerOf (syscallCode m)).isSome = true) := by
  refine ⟨fun instr m' => sequential_resumes hload,fun instr hfetch hop => ?_⟩
  have he : (operands m instr).effect instr = .raise .syscallException := by
    simp only [Operands.effect,hop]
  obtain ⟨m',hone,hregisters⟩ := OneInstruction_raise (hload.trans (by decide)) hfetch he
  have hpc : m'.registers PCReg = m.registers PCReg :=
    (hregisters PCReg (by decide)).trans (loaded_of_le hload (by decide) (by decide))
  have hcode : (m'.registers 2).toInt = syscallCode m := by
    rw [hregisters 2 (by decide),syscallCode]
  refine ⟨m',hone,?_⟩
  rintro k k' rfl hreturns
  cases hf : handlerOf (syscallCode m) with
  | none =>
    have hprev := PrevPC_of_unanswered (hcode.symm ▸ hf) hreturns
    rw [hpc] at hprev
    exact ⟨fun h => absurd h.1 hprev,fun h => absurd h.2 (by decide)⟩
  | some f =>
    rw [ExceptionHandler_of_handlerOf (hcode.symm ▸ hf)] at hreturns
    obtain ⟨hprev,hnow,hnext⟩ := (executed_of_call hreturns).2
    rw [hpc] at hprev hnow hnext
    unfold Resumes
    rw [hprev,hnow,hnext]
    constructor
    · rintro ⟨_,h,_⟩
      exact ⟨h.symm,rfl⟩
    · rintro ⟨h,_⟩
      refine ⟨rfl,h.symm,?_⟩
      rw [h,BitVec.add_assoc]
      rfl

/-- A program of two instructions, which is about to execute the first and asks for Add. -/
def adding (first second : BitVec 32) : Machine where
  registers := fun i => if i = 2 then 42#32 else if i = NextPCReg then 4#32 else 0#32
  mainMemory := fun i =>
    if i < 4 then first.extractLsb' (8 * i) 8
    else if i < 8 then second.extractLsb' (8 * (i - 4)) 8 else 0#8
  translation := (pendingLoad 0#32).translation

/-- `syscall` -/
theorem syscall_resumes_iff_add : ∃ m' k',
    (adding 0x0000000c#32 0#32).OneInstruction = .error (.exception .syscallException m') ∧
    ExceptionHandler { exampleKernel 42 with machine := m' } .syscallException = .ok k' ∧
    Resumes (adding 0x0000000c#32 0#32).registers k'.machine.registers := by
  have hrun : ∃ m' k',
      (adding 0x0000000c#32 0#32).OneInstruction = .error (.exception .syscallException m') ∧
      ExceptionHandler { exampleKernel 42 with machine := m' } .syscallException = .ok k' :=
    ⟨_,_,rfl,rfl⟩
  obtain ⟨m',k',hone,hreturns⟩ := hrun
  obtain ⟨m₁,hone₁,hall⟩ := (syscall_resumes_iff (m := adding 0x0000000c#32 0#32) (by decide)).2 _
    ⟨0x0000000c#32,_,rfl,rfl⟩ rfl
  cases hone.symm.trans hone₁
  exact ⟨m',k',hone,hreturns,(hall _ k' rfl hreturns).mpr (by decide)⟩

/-- `j 64` with `syscall` in its delay slot: after the call the program goes on at 8, and the
jump is lost. -/
theorem syscall_loses_jump : ∃ m m' k',
    (adding 0x08000010#32 0x0000000c#32).OneInstruction = .ok m ∧
    m.registers PCReg = 4#32 ∧ m.registers NextPCReg = 64#32 ∧
    m.OneInstruction = .error (.exception .syscallException m') ∧
    ExceptionHandler { exampleKernel 42 with machine := m' } .syscallException = .ok k' ∧
    k'.machine.registers PCReg = 8#32 ∧ k'.machine.registers NextPCReg = 12#32 :=
  ⟨_,_,_,rfl,rfl,rfl,rfl,rfl,rfl,rfl⟩

end Kernel
end NachOS
