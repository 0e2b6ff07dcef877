import NachOS.SyscallFrame
import NachOS.Switch
import NachOS.Descriptors
import NachOS.AddrSpace

/-! The entry into the kernel (userprog/exception.cc): which handlers a system call runs,
and how it moves the program counter. -/
namespace NachOS

open StateMachine hiding Machine
open Switch Hardware

namespace Kernel

@[match_pattern] abbrev SC_Halt : ℤ := 0
@[match_pattern] abbrev SC_Exit : ℤ := 1
@[match_pattern] abbrev SC_Exec : ℤ := 2
@[match_pattern] abbrev SC_Join : ℤ := 3
@[match_pattern] abbrev SC_Create : ℤ := 4
@[match_pattern] abbrev SC_Remove : ℤ := 5
@[match_pattern] abbrev SC_Open : ℤ := 6
@[match_pattern] abbrev SC_Read : ℤ := 7
@[match_pattern] abbrev SC_Write : ℤ := 8
@[match_pattern] abbrev SC_Seek : ℤ := 9
@[match_pattern] abbrev SC_Close : ℤ := 10
@[match_pattern] abbrev SC_ThreadFork : ℤ := 11
@[match_pattern] abbrev SC_ThreadYield : ℤ := 12
@[match_pattern] abbrev SC_ExecV : ℤ := 13
@[match_pattern] abbrev SC_ThreadExit : ℤ := 14
@[match_pattern] abbrev SC_ThreadJoin : ℤ := 15
@[match_pattern] abbrev SC_Add : ℤ := 42
@[match_pattern] abbrev SC_ReadChar : ℤ := 80
@[match_pattern] abbrev SC_PrintChar : ℤ := 81
@[match_pattern] abbrev SC_ReadString : ℤ := 82
@[match_pattern] abbrev SC_PrintString : ℤ := 83
@[match_pattern] abbrev SC_ReadNum : ℤ := 64
@[match_pattern] abbrev SC_PrintNum : ℤ := 65
@[match_pattern] abbrev SC_RandomNum : ℤ := 72

def ProcessPCRegister (k : Kernel) : Except Fault Kernel := do
  let k ← k.WriteRegister PrevPCReg (← k.ReadRegister PCReg)
  let k ← k.WriteRegister PCReg ((← k.ReadRegister PCReg) + 4)
  k.WriteRegister NextPCReg ((← k.ReadRegister PCReg) + 4)

/-- A handler runs, and is recorded. -/
def call (f : Handler) (k : Kernel) : Except Fault Kernel :=
  handle f { k with executed := k.executed ++ [f] }

/-- A case that calls a handler, advances the program counter and returns. -/
def answered (c : ℤ) (f : Handler) : Case Kernel :=
  ⟨c,[.run (call f),.run ProcessPCRegister] ++ [.ret]⟩

/-- A case that advances the program counter and has no `return`. -/
def unanswered (c : ℤ) : Case Kernel := ⟨c,[.run ProcessPCRegister]⟩

def ASSERTNOTREACHED (_ : Kernel) : Except Fault Kernel := .error .assertion

/-- The cases of the inner `switch`, in the order of the source. -/
def syscallCases : List (Case Kernel) :=
  [unanswered SC_Exit,unanswered SC_Exec,unanswered SC_Join,
    answered SC_Create .create,answered SC_Remove .remove,answered SC_Open .openFile,
    answered SC_Read .read,answered SC_Write .write,answered SC_Seek .seek,
    answered SC_Close .close,
    unanswered SC_ThreadFork,unanswered SC_ThreadYield,unanswered SC_ExecV,
    unanswered SC_ThreadExit,unanswered SC_ThreadJoin,
    ⟨SC_Halt,[.run (call .halt),.run ASSERTNOTREACHED,.brk]⟩,
    answered SC_Add .add,answered SC_ReadChar .readChar,answered SC_PrintChar .printChar,
    answered SC_ReadString .readString,answered SC_PrintString .printString,
    answered SC_ReadNum .readNum,answered SC_PrintNum .printNum,
    answered SC_RandomNum .randomNum]

def ExceptionHandler (k : Kernel) (which : ExceptionType) : Except Fault Kernel := do
  let type ← k.ReadRegister 2
  match which with
  | .noException => return k
  | .syscallException =>
    let (returned,k) ← exec (entry syscallCases [.brk] type) k
    if returned then return k else ASSERTNOTREACHED k
  | _ => SysHalt

/-- The codes of syscall.h. -/
def systemCalls : List ℤ :=
  [SC_Halt,SC_Exit,SC_Exec,SC_Join,SC_Create,SC_Remove,SC_Open,SC_Read,SC_Write,SC_Seek,
    SC_Close,SC_ThreadFork,SC_ThreadYield,SC_ExecV,SC_ThreadExit,SC_ThreadJoin,SC_Add,
    SC_ReadChar,SC_PrintChar,SC_ReadString,SC_PrintString,SC_ReadNum,SC_PrintNum,SC_RandomNum]

/-- The handler of a system call.  Exit, Exec, Join, ThreadFork, ThreadYield, ExecV,
ThreadExit and ThreadJoin have none. -/
def handlerOf (c : ℤ) : Option Handler :=
  match c with
  | SC_Halt => some .halt
  | SC_Create => some .create
  | SC_Remove => some .remove
  | SC_Open => some .openFile
  | SC_Read => some .read
  | SC_Write => some .write
  | SC_Seek => some .seek
  | SC_Close => some .close
  | SC_Add => some .add
  | SC_ReadChar => some .readChar
  | SC_PrintChar => some .printChar
  | SC_ReadString => some .readString
  | SC_PrintString => some .printString
  | SC_ReadNum => some .readNum
  | SC_PrintNum => some .printNum
  | SC_RandomNum => some .randomNum
  | _ => none

/-- The kernel after `ProcessPCRegister`. -/
def advance (k : Kernel) : Kernel :=
  ((k.setRegister PrevPCReg (k.machine.registers PCReg)).setRegister PCReg
    (k.machine.registers PCReg + 4)).setRegister NextPCReg (k.machine.registers PCReg + 4 + 4)

theorem ProcessPCRegister_eq (k : Kernel) : k.ProcessPCRegister = .ok k.advance := by
  have hsum : ∀ x : BitVec 32, BitVec.ofInt 32 (x.toInt + 4) = x + 4 := by
    intro x
    rw [BitVec.ofInt_add,BitVec.ofInt_toInt]
    rfl
  unfold ProcessPCRegister
  refine bind_ok.mpr ⟨_,ReadRegister_of_lt k (by decide),?_⟩
  refine bind_ok.mpr ⟨_,WriteRegister_of_lt _ _ (by decide),?_⟩
  refine bind_ok.mpr ⟨_,ReadRegister_of_lt _ (by decide),?_⟩
  refine bind_ok.mpr ⟨_,WriteRegister_of_lt _ _ (by decide),?_⟩
  refine bind_ok.mpr ⟨_,ReadRegister_of_lt _ (by decide),?_⟩
  rw [WriteRegister_of_lt _ _ (by decide)]
  simp only [hsum,BitVec.ofInt_toInt,setRegister_registers,Function.update_self,
    Function.update_of_ne (show PCReg ≠ PrevPCReg by decide),advance]

/-- The program counter moved on by one instruction. -/
def AdvancedOnce (k k' : Kernel) : Prop :=
  k'.machine.registers PrevPCReg = k.machine.registers PCReg ∧
  k'.machine.registers PCReg = k.machine.registers PCReg + 4 ∧
  k'.machine.registers NextPCReg = k.machine.registers PCReg + 8

theorem advancedOnce_advance (k : Kernel) : AdvancedOnce k k.advance := by
  refine ⟨?_,?_,?_⟩
  · simp [advance]
  · simp [advance]
  · simp [advance,BitVec.add_assoc]

theorem labels_syscallCases : ∀ {c : ℤ}, c ∈ syscallCases.map (·.label) → c ∈ systemCalls := by
  decide

theorem nodup_syscallCases : (syscallCases.map (·.label)).Nodup := by decide

theorem ExceptionHandler_syscall (k : Kernel) : k.ExceptionHandler .syscallException =
    exec (entry syscallCases [.brk] (k.machine.registers 2).toInt) k >>= fun r =>
      if r.1 = true then .ok r.2 else ASSERTNOTREACHED r.2 := by
  unfold ExceptionHandler
  rw [ReadRegister_of_lt k (by decide)]
  rfl

/-- A case that calls a handler runs nothing else. -/
theorem exec_answered {c : ℤ} {f : Handler} (h : answered c f ∈ syscallCases) (k : Kernel) :
    exec (entry syscallCases [.brk] c) k =
      (call f k >>= ProcessPCRegister) >>= fun k' => .ok (true,k') := by
  rw [exec_entry_of_ret nodup_syscallCases h]
  simp

/-- `Halt` does not return. -/
theorem exec_halt (k : Kernel) :
    exec (entry syscallCases [.brk] SC_Halt) k = .error .halted := rfl

theorem ExceptionHandler_of_handlerOf {k : Kernel} {f : Handler}
    (h : handlerOf (k.machine.registers 2).toInt = some f) :
    k.ExceptionHandler .syscallException = call f k >>= ProcessPCRegister := by
  rw [ExceptionHandler_syscall]
  generalize (k.machine.registers 2).toInt = c at h
  by_cases hc : c = SC_Halt
  · subst hc
    cases h
    rfl
  · have hmem : answered c f ∈ syscallCases := by
      unfold handlerOf at h
      split at h
      · exact absurd rfl hc
      all_goals cases h
      all_goals simp [syscallCases]
    rw [exec_answered hmem]
    cases call f k >>= ProcessPCRegister <;> rfl

/-- What a handler that returns leaves to the user program. -/
theorem executed_of_call {k k' : Kernel} {f : Handler}
    (h : (call f k >>= ProcessPCRegister) = .ok k') :
    k'.executed = k.executed ++ [f] ∧ AdvancedOnce k k' := by
  obtain ⟨k₁,hcall,h⟩ := bind_ok.mp h
  have ha := Answers.of_handle hcall
  rw [ProcessPCRegister_eq] at h
  cases h
  have hpc := ha.registers PCReg (by decide)
  have hadv := advancedOnce_advance k₁
  refine ⟨ha.executed,?_⟩
  unfold AdvancedOnce at hadv
  rw [hpc] at hadv
  exact hadv

/-- The cases without a `return`, each with the one that control runs on into. -/
def runsOn : List (ℤ × ℤ) :=
  [(SC_Exit,SC_Exec),(SC_Exec,SC_Join),(SC_Join,SC_Create),(SC_ThreadFork,SC_ThreadYield),
    (SC_ThreadYield,SC_ExecV),(SC_ExecV,SC_ThreadExit),(SC_ThreadExit,SC_ThreadJoin),
    (SC_ThreadJoin,SC_Halt)]

theorem exec_unanswered {c d : ℤ} (h : (c,d) ∈ runsOn) (k : Kernel) :
    exec (entry syscallCases [.brk] c) k = exec (entry syscallCases [.brk] d) k.advance := by
  have hrun : ∀ rest, exec (.run ProcessPCRegister :: rest) k = exec rest k.advance := by
    intro rest
    rw [exec_run,ProcessPCRegister_eq]
    rfl
  simp only [runsOn,List.mem_cons,Prod.mk.injEq,List.not_mem_nil,or_false] at h
  rcases h with ⟨rfl,rfl⟩ | ⟨rfl,rfl⟩ | ⟨rfl,rfl⟩ | ⟨rfl,rfl⟩ | ⟨rfl,rfl⟩ | ⟨rfl,rfl⟩ |
    ⟨rfl,rfl⟩ | ⟨rfl,rfl⟩
  all_goals exact hrun _

/-- Control runs on through `n` cases without a handler. -/
theorem exec_runsOn {c d : ℤ} {n : ℕ} (hlast : (c,d) ∈ runsOn)
    (h : ∀ i < n, (c - (i + 1 : ℕ),c - i) ∈ runsOn) (k : Kernel) :
    exec (entry syscallCases [.brk] (c - n)) k =
      exec (entry syscallCases [.brk] d) (advance^[n + 1] k) := by
  induction n generalizing k with
  | zero => simpa using exec_unanswered hlast k
  | succ n ih =>
    rw [exec_unanswered (h n n.lt_succ_self)]
    exact ih (fun i hi => h i (by omega)) k.advance

/-- Exit, Exec and Join run the handler of Create, with the program counter advanced once
for each case that control passed. -/
theorem ExceptionHandler_before_create {k : Kernel} {n : ℕ} (hn : n < 3)
    (h : (k.machine.registers 2).toInt = 3 - n) :
    k.ExceptionHandler .syscallException =
      call .create (advance^[n + 1] k) >>= ProcessPCRegister := by
  have hpairs : ∀ i < n, ((3 - (i + 1 : ℕ) : ℤ),(3 - i : ℤ)) ∈ runsOn := by
    intro i hi
    have hcases : i = 0 ∨ i = 1 := by omega
    rcases hcases with rfl | rfl <;> decide
  rw [ExceptionHandler_syscall,h,exec_runsOn (d := SC_Create) (by decide) hpairs,
    exec_answered (f := .create) (by simp [syscallCases])]
  cases call .create (advance^[n + 1] k) >>= ProcessPCRegister <;> rfl

/-- ThreadFork, ThreadYield, ExecV, ThreadExit and ThreadJoin run the handler of Halt. -/
theorem ExceptionHandler_before_halt {k : Kernel} {n : ℕ} (hn : n < 5)
    (h : (k.machine.registers 2).toInt = 15 - n) :
    k.ExceptionHandler .syscallException = .error .halted := by
  have hpairs : ∀ i < n, ((15 - (i + 1 : ℕ) : ℤ),(15 - i : ℤ)) ∈ runsOn := by
    intro i hi
    have hcases : i = 0 ∨ i = 1 ∨ i = 2 ∨ i = 3 := by omega
    rcases hcases with rfl | rfl | rfl | rfl <;> decide
  rw [ExceptionHandler_syscall,h,exec_runsOn (d := SC_Halt) (by decide) hpairs,exec_halt]
  rfl

/-- A code that is no system call reaches the end of the handler. -/
theorem ExceptionHandler_unknown {k : Kernel} (hc : (k.machine.registers 2).toInt ∉ systemCalls) :
    exec (entry syscallCases [.brk] (k.machine.registers 2).toInt) k = .ok (false,k) ∧
      k.ExceptionHandler .syscallException = .error .assertion := by
  have hlabel : (k.machine.registers 2).toInt ∉ syscallCases.map (·.label) :=
    fun hin => hc (labels_syscallCases hin)
  have hexec : exec (entry syscallCases [.brk] (k.machine.registers 2).toInt) k =
      .ok (false,k) := by
    rw [entry_of_notMem hlabel]
    rfl
  refine ⟨hexec,?_⟩
  rw [ExceptionHandler_syscall,hexec]
  rfl

/-- A system call that has a handler runs this handler and no other, and its caller goes on
with the next instruction; a code that is no system call ends the kernel. -/
theorem syscall_dispatch (k : Kernel) :
    (∀ f, handlerOf (k.machine.registers 2).toInt = some f →
      k.ExceptionHandler .syscallException = (call f k >>= ProcessPCRegister) ∧
      ∀ k', k.ExceptionHandler .syscallException = .ok k' →
        k'.executed = k.executed ++ [f] ∧ AdvancedOnce k k') ∧
    ((k.machine.registers 2).toInt ∉ systemCalls →
      exec (entry syscallCases [.brk] (k.machine.registers 2).toInt) k = .ok (false,k) ∧
      k.ExceptionHandler .syscallException = .error .assertion) := by
  constructor
  · intro f hf
    have he := ExceptionHandler_of_handlerOf hf
    refine ⟨he,fun k' hk' => ?_⟩
    rw [he] at hk'
    exact executed_of_call hk'
  · exact ExceptionHandler_unknown

/-- The machine of a user program of eight pages with the string "a" at address 0, which
asks for the system call `c`. -/
def exampleMachine (c : BitVec 32) : Machine :=
  let m : Machine :=
    ⟨fun i => if i = 2 then c else 0,fun i => if i = 0 then 97#8 else 0#8,.unset⟩
  (AddrSpace.new m 8).1.RestoreState m

def exampleKernel (c : BitVec 32) : Kernel where
  machine := exampleMachine c
  fileSystem := .new Stub.exampleHost
  console := ⟨[],false,[]⟩
  heap := fun _ _ => 0#8
  random := fun _ => 0
  executed := []

theorem syscall_dispatch_create : ∃ k',
    (exampleKernel 4).ExceptionHandler .syscallException = .ok k' ∧ k'.executed = [.create] ∧
      AdvancedOnce (exampleKernel 4) k' := by
  have hrun : ∃ k', (exampleKernel 4).ExceptionHandler .syscallException = .ok k' := ⟨_,rfl⟩
  obtain ⟨k',hk'⟩ := hrun
  exact ⟨k',hk',((syscall_dispatch (exampleKernel 4)).1 .create rfl).2 k' hk'⟩

/-- Exit creates a file and goes four instructions on, ThreadExit halts the machine, and
the code 99 ends the kernel. -/
theorem exit_creates_file :
    (∃ k', (exampleKernel 1).ExceptionHandler .syscallException = .ok k' ∧
      k'.executed = [.create] ∧ k'.fileSystem.host.names [97#8] = some 10 ∧
      k'.machine.registers PCReg = 16) ∧
    (exampleKernel 14).ExceptionHandler .syscallException = .error .halted ∧
    (exampleKernel 99).ExceptionHandler .syscallException = .error .assertion :=
  ⟨⟨_,rfl,rfl,by decide,by decide⟩,rfl,rfl⟩

end Kernel
end NachOS
