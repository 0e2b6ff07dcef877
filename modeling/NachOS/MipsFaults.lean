import NachOS.MipsEffect

/-! Instructions that fault.  When `ExceptionHandler` is entered, nothing that the user
program can see has changed but the load that the instruction before had started, so that
the instruction can be executed again. -/
namespace NachOS
namespace Hardware
namespace Machine

open StateMachine hiding Machine

variable {m m' : Machine} {which : ExceptionType}

/-- Without a page table, no instruction is executed: the program counter is misaligned, or
an assertion fails. -/
theorem OneInstruction_unset (hset : ¬ m.translation.isSet = true) :
    (m.access (m.registers PCReg) 4 false = .ok (.error .addressErrorException) ∧
      m.OneInstruction = m.RaiseException .addressErrorException (m.registers PCReg)) ∨
    m.OneInstruction = .error (.fault .assertion) := by
  unfold OneInstruction
  rw [reg_of_lt m (show PCReg < NumTotalRegs by decide)]
  simp only [bind,Except.bind]
  by_cases halign : 4 = 4 ∧ (m.registers PCReg).toNat % 4 ≠ 0 ∨
      4 = 2 ∧ (m.registers PCReg).toNat % 2 ≠ 0
  · rw [readMem_misaligned m halign]
    refine Or.inl ⟨?_,RaiseException_bind _ _ _ _⟩
    rw [access_eq]
    exact if_pos halign
  · have hread : m.readMem (m.registers PCReg) 4 = .error (.fault .assertion) := by
      unfold readMem ReadMem
      rw [access_eq]
      rw [if_neg halign,check,if_neg hset]
      rfl
    rw [hread]
    exact Or.inr rfl

/-- An exception is raised before the instruction has changed anything. -/
theorem OneInstruction_exception (h : m.OneInstruction = .error (.exception which m')) :
    ∃ badVAddr t, Reports m which badVAddr ∧ m' = raised { m with translation := t } badVAddr := by
  by_cases hset : m.translation.isSet = true
  · rcases OneInstruction_cases hset with
      ⟨e,badVAddr,t,hreports,hraise⟩ | ⟨instr,_,⟨b,t,next,v,pc,_,_,hdone⟩ | ⟨_,hdivide⟩⟩
    · obtain ⟨rfl,hm⟩ := RaiseException_exception ((hraise _ (.refl m)).symm.trans h)
      exact ⟨badVAddr,t,hreports,hm⟩
    · exact absurd ((hdone _ (.refl m)).symm.trans h) finish_not_exception
    · cases (hdivide _ (.refl m)).symm.trans h
  · rcases OneInstruction_unset hset with ⟨ht,hraise⟩ | hfault
    · obtain ⟨rfl,hm⟩ := RaiseException_exception (hraise.symm.trans h)
      exact ⟨_,m.translation,.fetch ht,hm⟩
    · cases hfault.symm.trans h

/-- The registers `i` that an exception leaves alone: all but register 0, the target of the
pending load, and the three that keep the pending load and the address of the fault. -/
def Kept (m : Machine) (i : ℕ) : Prop :=
  i ≠ 0 ∧ i ≠ (m.registers LoadReg).toNat ∧ i ≠ LoadReg ∧ i ≠ LoadValueReg ∧ i ≠ BadVAddrReg

/-- The registers the handler finds: the pending load is completed after the fault was
recorded. -/
theorem raised_registers (m : Machine) (badVAddr : BitVec 32) (i : ℕ) :
    (m.raised badVAddr).registers i =
      if i = 0 then 0#32 else if i = LoadValueReg then 0#32 else if i = LoadReg then 0#32
      else if i = (m.registers LoadReg).toNat then m.registers LoadValueReg
      else if i = BadVAddrReg then badVAddr else m.registers i := by
  have hload : Function.update m.registers BadVAddrReg badVAddr LoadReg = m.registers LoadReg :=
    Function.update_of_ne (by decide) _ _
  have hvalue : Function.update m.registers BadVAddrReg badVAddr LoadValueReg =
      m.registers LoadValueReg := Function.update_of_ne (by decide) _ _
  simp only [raised,loaded,hload,hvalue,Function.update_apply]

theorem raised_kept {i : ℕ} (h : Kept m i) (badVAddr : BitVec 32) :
    (m.raised badVAddr).registers i = m.registers i := by
  obtain ⟨hzero,htarget,hload,hvalue,hbad⟩ := h
  rw [raised_registers,if_neg hzero,if_neg hvalue,if_neg hload,if_neg htarget,if_neg hbad]

theorem raised_pending (hzero : (m.registers LoadReg).toNat ≠ 0)
    (hload : (m.registers LoadReg).toNat ≠ LoadReg)
    (hvalue : (m.registers LoadReg).toNat ≠ LoadValueReg) (badVAddr : BitVec 32) :
    (m.raised badVAddr).registers (m.registers LoadReg).toNat = m.registers LoadValueReg := by
  rw [raised_registers,if_neg hzero,if_neg hvalue,if_neg hload,if_pos rfl]

theorem raised_badVAddr (h : (m.registers LoadReg).toNat ≠ BadVAddrReg) (badVAddr : BitVec 32) :
    (m.raised badVAddr).registers BadVAddrReg = badVAddr := by
  rw [raised_registers,if_neg (by decide),if_neg (by decide),if_neg (by decide),if_neg h.symm,
    if_pos rfl]

/-- A faulting instruction can be executed again: memory and the registers are as before,
with the pending load completed and the fault recorded.  System calls enter the handler in the
same way. -/
theorem faulting_instruction_restartable (h : m.OneInstruction = .error (.exception which m')) :
    m'.mainMemory = m.mainMemory ∧ (∀ i, Kept m i → m'.registers i = m.registers i) ∧
    m'.registers 0 = 0#32 ∧ m'.registers LoadReg = 0#32 ∧
    ((m.registers LoadReg).toNat ∉ [0,LoadReg,LoadValueReg] →
      m'.registers (m.registers LoadReg).toNat = m.registers LoadValueReg) ∧
    ((m.registers LoadReg).toNat ≠ BadVAddrReg →
      Reports m which (m'.registers BadVAddrReg)) := by
  obtain ⟨badVAddr,t,hreports,rfl⟩ := OneInstruction_exception h
  refine ⟨rfl,fun i hi => raised_kept hi badVAddr,rfl,rfl,fun hpending => ?_,fun hbad => ?_⟩
  · simp only [List.mem_cons,List.not_mem_nil,or_false,not_or] at hpending
    obtain ⟨hzero,hload,hvalue⟩ := hpending
    exact raised_pending (m := { m with translation := t }) hzero hload hvalue badVAddr
  · rw [raised_badVAddr (m := { m with translation := t }) hbad]
    exact hreports

/-- One page of memory with a word at address 0, and a load of 7 into register 3 pending. -/
def pendingLoad (word : BitVec 32) : Machine where
  registers := fun i =>
    if i = LoadReg then 3#32 else if i = LoadValueReg then 7#32
    else if i = NextPCReg then 4#32 else 0#32
  mainMemory := fun i => if i < 4 then word.extractLsb' (8 * i) 8 else 0#8
  translation := .pageTable (fun i => ⟨BitVec.ofNat 32 i,BitVec.ofNat 32 i,true,false,false,false⟩) 1

/-- `lw $5,2($0)` -/
theorem faulting_instruction_restartable_lw : ∃ m',
    (pendingLoad 0x8c050002#32).OneInstruction = .error (.exception .addressErrorException m') ∧
      m'.registers 3 = 7#32 ∧ m'.registers PCReg = 0#32 ∧ m'.registers BadVAddrReg = 2#32 ∧
      Reports (pendingLoad 0x8c050002#32) .addressErrorException 2#32 := by
  have hrun : ∃ m', (pendingLoad 0x8c050002#32).OneInstruction =
      .error (.exception .addressErrorException m') ∧ m'.registers BadVAddrReg = 2#32 := ⟨_,rfl,rfl⟩
  obtain ⟨m',hm',hbad⟩ := hrun
  obtain ⟨_,hkept,_,_,hpending,hreports⟩ := faulting_instruction_restartable hm'
  refine ⟨m',hm',hpending (by decide),?_,hbad,?_⟩
  · exact (hkept PCReg ⟨by decide,by decide,by decide,by decide,by decide⟩).trans rfl
  · rw [← hbad]
    exact hreports (by decide)

end Machine
end Hardware
end NachOS
