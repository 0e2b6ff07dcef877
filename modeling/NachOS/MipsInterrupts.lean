import NachOS.MipsRuns

/-! Interrupts between a load and the instruction after it.  `CheckIfDue` completes the
pending load before it calls the handlers; the user program should not be able to tell.  It
can, if the instruction writes the register that the load is pending for. -/
namespace NachOS

open StateMachine hiding Machine
open OpCode Hardware

/-! Which registers an instruction reads and writes. -/

namespace OpCode

/-- Register `rs` is a source operand. -/
def usesRs : OpCode → Bool
  | OP_J | OP_JAL | OP_LUI | OP_MFHI | OP_MFLO | OP_SLL | OP_SRA | OP_SRL | OP_SYSCALL
  | OP_RES | OP_UNIMP | OP_RFE | SPECIAL | BCOND => false
  | _ => true

/-- Register `rt` is a source operand.  `LWL` and `LWR`, which merge into it, find the value
that is about to be loaded. -/
def usesRt : OpCode → Bool
  | OP_ADD | OP_ADDU | OP_AND | OP_BEQ | OP_BNE | OP_DIV | OP_DIVU | OP_MULT | OP_MULTU
  | OP_NOR | OP_OR | OP_SB | OP_SH | OP_SLL | OP_SLLV | OP_SLT | OP_SLTU | OP_SRA | OP_SRAV
  | OP_SRL | OP_SRLV | OP_SUB | OP_SUBU | OP_SW | OP_SWL | OP_SWR | OP_XOR => true
  | _ => false

end OpCode

namespace Instruction

variable (instr : Instruction)

def sources : List ℕ :=
  (if instr.opCode.usesRs then [instr.rs] else []) ++
    if instr.opCode.usesRt then [instr.rt] else []

/-- The general register that the instruction writes at once; a load writes none. -/
def destination : Option ℕ :=
  match instr.opCode with
  | OP_ADD | OP_ADDU | OP_AND | OP_JALR | OP_MFHI | OP_MFLO | OP_NOR | OP_OR | OP_SLL | OP_SLLV
  | OP_SLT | OP_SLTU | OP_SRA | OP_SRAV | OP_SRL | OP_SRLV | OP_SUB | OP_SUBU | OP_XOR =>
    some instr.rd
  | OP_ADDI | OP_ADDIU | OP_ANDI | OP_LUI | OP_ORI | OP_SLTI | OP_SLTIU | OP_XORI =>
    some instr.rt
  | OP_BGEZAL | OP_BLTZAL | OP_JAL => some R31
  | _ => none

end Instruction

namespace Hardware

open Machine

namespace Operands

variable {instr : Instruction} (o : Operands)

theorem effect_rs (h : instr.opCode.usesRs = false) (x : BitVec 32) :
    effect { o with rs := x } instr = o.effect instr := by
  unfold effect
  cases hop : instr.opCode with
  | OP_J | OP_JAL | OP_LUI | OP_MFHI | OP_MFLO | OP_SLL | OP_SRA | OP_SRL | OP_SYSCALL
  | OP_RES | OP_UNIMP | OP_RFE | SPECIAL | BCOND => rfl
  | _ =>
    rw [hop] at h
    cases h

theorem effect_rt (h : instr.opCode.usesRt = false) (x : BitVec 32) :
    effect { o with rt := x } instr = o.effect instr := by
  unfold effect
  cases hop : instr.opCode with
  | OP_ADD | OP_ADDU | OP_AND | OP_BEQ | OP_BNE | OP_DIV | OP_DIVU | OP_MULT | OP_MULTU
  | OP_NOR | OP_OR | OP_SB | OP_SH | OP_SLL | OP_SLLV | OP_SLT | OP_SLTU | OP_SRA | OP_SRAV
  | OP_SRL | OP_SRLV | OP_SUB | OP_SUBU | OP_SW | OP_SWL | OP_SWR | OP_XOR =>
    rw [hop] at h
    cases h
  | _ => rfl

/-- Only `LWL` and `LWR` merge, and they write no register at once. -/
theorem effect_merged {d : ℕ} (h : instr.destination = some d) (x : BitVec 32) :
    effect { o with merged := x } instr = o.effect instr := by
  unfold Instruction.destination at h
  unfold effect
  cases hop : instr.opCode with
  | OP_LWL | OP_LWR =>
    rw [hop] at h
    cases h
  | _ => rfl

variable {o} {o' : Operands}

theorem effect_congr (hrs : instr.opCode.usesRs = true → o'.rs = o.rs)
    (hrt : instr.opCode.usesRt = true → o'.rt = o.rt) (hhi : o'.hi = o.hi) (hlo : o'.lo = o.lo)
    (hpc : o'.nextPC = o.nextPC) (hmerged : o'.merged = o.merged) :
    o'.effect instr = o.effect instr := by
  have h₁ : effect { o' with rs := o.rs } instr = o'.effect instr := by
    cases hu : instr.opCode.usesRs with
    | false => exact o'.effect_rs hu o.rs
    | true => rw [← hrs hu]
  have h₂ : effect { o' with rs := o.rs,rt := o.rt } instr = effect { o' with rs := o.rs } instr := by
    cases hu : instr.opCode.usesRt with
    | false => exact effect_rt { o' with rs := o.rs } hu o.rt
    | true => rw [← hrt hu]
  rw [← h₁,← h₂,hhi,hlo,hpc,hmerged]

/-- The destination is written, unless the operation overflows. -/
theorem effect_of_destination (o : Operands) {d : ℕ} (h : instr.destination = some d) :
    (∃ x pc, o.effect instr = .write [(d,x)] pc) ∨ o.effect instr = .raise .overflowException := by
  unfold Instruction.destination at h
  unfold effect
  cases hop : instr.opCode with
  | OP_ADD | OP_SUB | OP_ADDI =>
    rw [hop] at h
    cases h
    simp only [trapping]
    split
    · exact Or.inr rfl
    · exact Or.inl ⟨_,_,rfl⟩
  | _ =>
    rw [hop] at h
    cases h
    try exact Or.inl ⟨_,_,rfl⟩

theorem toHiLo_not_gp {p : BitVec 32 × BitVec 32} {w : ℕ × BitVec 32}
    (hw : w ∈ (o.toHiLo p).writes) : ¬ w.1 < NumGPRegs := by
  simp only [toHiLo,Effect.writes,List.mem_cons,List.not_mem_nil,or_false] at hw
  rcases hw with rfl | rfl
  · exact (by decide : ¬ LoReg < NumGPRegs)
  · exact (by decide : ¬ HiReg < NumGPRegs)

/-- No other general register is written. -/
theorem destination_of_writes {w : ℕ × BitVec 32} (hw : w ∈ (o.effect instr).writes)
    (hlt : w.1 < NumGPRegs) : instr.destination = some w.1 := by
  unfold Instruction.destination
  unfold effect at hw
  cases hop : instr.opCode with
  | OP_ADD | OP_SUB | OP_ADDI =>
    simp only [hop,trapping] at hw ⊢
    split at hw
    · cases hw
    · cases List.mem_singleton.mp hw
      rfl
  | OP_DIV =>
    simp only [hop] at hw
    split at hw
    · cases hw
    · exact absurd hlt (toHiLo_not_gp hw)
  | OP_DIVU | OP_MULT | OP_MULTU =>
    simp only [hop] at hw
    exact absurd hlt (toHiLo_not_gp hw)
  | OP_MTHI =>
    simp only [hop] at hw
    cases List.mem_singleton.mp hw
    exact absurd hlt (show ¬ HiReg < NumGPRegs by decide)
  | OP_MTLO =>
    simp only [hop] at hw
    cases List.mem_singleton.mp hw
    exact absurd hlt (show ¬ LoReg < NumGPRegs by decide)
  | OP_BEQ | OP_BGEZ | OP_BGTZ | OP_BLEZ | OP_BLTZ | OP_BNE | OP_J | OP_JR | OP_LB | OP_LBU
  | OP_LH | OP_LHU | OP_LW | OP_LWL | OP_LWR | OP_SB | OP_SH | OP_SW | OP_SWL | OP_SWR
  | OP_SYSCALL | OP_RES | OP_UNIMP | OP_RFE | SPECIAL | BCOND =>
    simp only [hop] at hw
    cases hw
  | _ =>
    simp only [hop] at hw ⊢
    cases List.mem_singleton.mp hw
    rfl

end Operands

namespace Machine

/-! The two orders. -/

/-- What `CheckIfDue` does to the registers. -/
def complete (m : Machine) : Except Trap Machine := m.DelayedLoad 0 0#32

/-- The machines are the same to a user program; registers 32 and 33 are Hi and Lo. -/
structure Agree (m m' : Machine) : Prop where
  registers : ∀ i < PCReg, m'.registers i = m.registers i
  pc : m'.registers PCReg = m.registers PCReg
  nextPC : m'.registers NextPCReg = m.registers NextPCReg
  memory : m'.mainMemory = m.mainMemory

def SameOutcome : Except Trap Machine → Except Trap Machine → Prop
  | .ok m, .ok m' => Agree m m'
  | .error (.exception which m), .error (.exception which' m') => which = which' ∧ Agree m m'
  | _, _ => False

/-- An interrupt before the instruction makes no difference after it. -/
def Transparent (m : Machine) : Prop :=
  SameOutcome (m.OneInstruction >>= complete)
    (m.complete >>= fun m' => m'.OneInstruction >>= complete)

/-- The instruction does not fault. -/
def Completes (m : Machine) : Prop :=
  (∃ m', m.OneInstruction = .ok m') ∨
    ∃ m', m.OneInstruction = .error (.exception .syscallException m')

/-- The machine with another value in the pending load. -/
def loading (m : Machine) (value : BitVec 32) : Machine :=
  { m with registers := Function.update m.registers LoadValueReg value }

variable {m : Machine} {f : ℕ → BitVec 32} {ws : List (ℕ × BitVec 32)} {next : ℕ}
  {v pc : BitVec 32}

theorem Completes.isSet (h : m.Completes) : m.translation.isSet = true := by
  by_contra hset
  rcases OneInstruction_unset hset with ⟨_,hraise⟩ | hfault
  · rcases h with ⟨m',h⟩ | ⟨m',h⟩
    · obtain ⟨trap,htrap⟩ := m.RaiseException_error .addressErrorException (m.registers PCReg)
      cases (htrap _).symm.trans (hraise.symm.trans h)
    · cases (RaiseException_exception (hraise.symm.trans h)).1
  · rcases h with ⟨m',h⟩ | ⟨m',h⟩ <;> cases hfault.symm.trans h

/-! The registers after each of them. -/

theorem loaded_of_lt (f : ℕ → BitVec 32) (nextReg : ℕ) (v : BitVec 32) {i : ℕ} (hi : i < LoadReg) :
    loaded f nextReg v i =
      if i = 0 then 0#32 else if i = (f LoadReg).toNat then f LoadValueReg else f i := by
  have hvalue := (hi.trans (show LoadReg < LoadValueReg by decide)).ne
  simp only [loaded,Function.update_apply,if_neg hvalue,if_neg hi.ne]

theorem loaded_of_le (hload : (f LoadReg).toNat < NumGPRegs) {i : ℕ} (hle : NumGPRegs ≤ i)
    (hi : i < LoadReg) : loaded f next v i = f i := by
  have hne := (hload.trans_le hle).ne'
  rw [loaded_of_lt f _ _ hi,if_neg hne,if_neg (Nat.zero_lt_of_lt (Nat.lt_of_lt_of_le hload hle)).ne']

/-- The target of the load that an instruction leaves pending. -/
theorem finished_load (f : ℕ → BitVec 32) (hnext : next < NumGPRegs) (v pc : BitVec 32) :
    (finished f next v pc LoadReg).toNat = next := by
  have hload : finished f next v pc LoadReg = BitVec.ofNat 32 next := rfl
  rw [hload,BitVec.toNat_ofNat]
  exact Nat.mod_eq_of_lt (hnext.trans (by decide))

/-- Register `i` after the instruction and the completion of its own load. -/
theorem completed_of_lt (f : ℕ → BitVec 32) (hnext : next < NumGPRegs) (v pc : BitVec 32) {i : ℕ}
    (hi : i < PCReg) : loaded (finished f next v pc) 0 0#32 i =
      if i = 0 then 0#32 else if i = next then v
      else if i = (f LoadReg).toNat then f LoadValueReg else f i := by
  have hvalue : finished f next v pc LoadValueReg = v := rfl
  have hfinished : finished f next v pc i = loaded f next v i := by
    have hne₁ := (hi.trans (show PCReg < NextPCReg by decide)).ne
    have hne₂ := (hi.trans (show PCReg < PrevPCReg by decide)).ne
    simp only [finished,Function.update_of_ne hne₁,Function.update_of_ne hi.ne,
      Function.update_of_ne hne₂]
  rw [loaded_of_lt _ _ _ (hi.trans (by decide)),finished_load f hnext,hvalue,hfinished,
    loaded_of_lt _ _ _ (hi.trans (by decide))]
  split_ifs <;> rfl

theorem completed_pc (hload : (f LoadReg).toNat < NumGPRegs) (hnext : next < NumGPRegs)
    (v pc : BitVec 32) : loaded (finished f next v pc) 0 0#32 PCReg = f NextPCReg := by
  have hpc : finished f next v pc PCReg = loaded f next v NextPCReg := rfl
  have hne₁ := (hnext.trans (show NumGPRegs < PCReg by decide)).ne'
  have hne₂ := (hload.trans (show NumGPRegs < NextPCReg by decide)).ne'
  rw [loaded_of_lt _ _ _ (by decide),finished_load f hnext,if_neg (by decide),if_neg hne₁,hpc,
    loaded_of_lt _ _ _ (by decide),if_neg (by decide),if_neg hne₂]

theorem completed_nextPC (f : ℕ → BitVec 32) (hnext : next < NumGPRegs) (v pc : BitVec 32) :
    loaded (finished f next v pc) 0 0#32 NextPCReg = pc := by
  have hpc : finished f next v pc NextPCReg = pc := rfl
  have hne := (hnext.trans (show NumGPRegs < NextPCReg by decide)).ne'
  rw [loaded_of_lt _ _ _ (by decide),finished_load f hnext,if_neg (by decide),if_neg hne,hpc]

theorem written_congr {g : ℕ → BitVec 32} {i : ℕ} (h : g i = f i) :
    written g ws i = written f ws i := by
  induction ws generalizing f g with
  | nil => exact h
  | cons w ws ih =>
    refine ih (f := Function.update f w.1 w.2) (g := Function.update g w.1 w.2) ?_
    simp only [Function.update_apply,h]

/-- If the instruction does not write the target of the pending load, it does not matter
whether the load is completed before it or with it. -/
theorem agree_done (hload : (f LoadReg).toNat < NumGPRegs) (hws : ∀ w ∈ ws, w.1 < PCReg)
    (htarget : ∀ w ∈ ws, w.1 ≠ (f LoadReg).toNat) (hnext : next < NumGPRegs) (b : Buffer)
    (t t' : Translation) :
    Agree ⟨loaded (finished (written f ws) next v pc) 0 0#32,b,t⟩
      ⟨loaded (finished (written (loaded f 0 0#32) ws) next v pc) 0 0#32,b,t'⟩ := by
  have hpending : written f ws LoadReg = f LoadReg := written_of_le hws (by decide)
  have hvalue : written f ws LoadValueReg = f LoadValueReg := written_of_le hws (by decide)
  have hnone : written (loaded f 0 0#32) ws LoadReg = 0#32 := written_of_le hws (by decide)
  refine ⟨fun i hi => ?_,?_,?_,rfl⟩
  · show loaded _ _ _ i = loaded _ _ _ i
    rw [completed_of_lt _ hnext v pc hi,completed_of_lt _ hnext v pc hi,hpending,hnone,hvalue]
    by_cases hzero : i = 0
    · rw [if_pos hzero,if_pos hzero]
    by_cases hi' : i = next
    · rw [if_neg hzero,if_neg hzero,if_pos hi',if_pos hi']
    rw [if_neg hzero,if_neg hzero,if_neg hi',if_neg hi',if_neg (by simpa using hzero)]
    have hloaded := loaded_of_lt f 0 0#32 (hi.trans (by decide))
    rw [if_neg hzero] at hloaded
    by_cases hr : i = (f LoadReg).toNat
    · rw [if_pos hr] at hloaded ⊢
      rw [written_of_notMem (fun w hw => hr ▸ htarget w hw),hloaded]
    · rw [if_neg hr] at hloaded ⊢
      exact written_congr hloaded
  · have hafter := completed_pc (f := written (loaded f 0 0#32) ws) (by rw [hnone]; decide) hnext v pc
    have hbefore := completed_pc (f := written f ws) (by rw [hpending]; exact hload) hnext v pc
    have hsame : written (loaded f 0 0#32) ws NextPCReg = written f ws NextPCReg :=
      written_congr (loaded_of_le hload (by decide : NumGPRegs ≤ NextPCReg) (by decide))
    exact hafter.trans (hsame.trans hbefore.symm)
  · exact (completed_nextPC _ hnext v pc).trans (completed_nextPC _ hnext v pc).symm

theorem loaded_loaded (f : ℕ → BitVec 32) {i : ℕ} (hi : i < LoadReg) :
    loaded (loaded f 0 0#32) 0 0#32 i = loaded f 0 0#32 i := by
  have hnone : (loaded f 0 0#32 LoadReg).toNat = 0 := rfl
  rw [loaded_of_lt _ _ _ hi,hnone]
  by_cases hzero : i = 0
  · rw [if_pos hzero,hzero]
    rfl
  · rw [if_neg hzero,if_neg hzero]

theorem raised_of_lt (m : Machine) (badVAddr : BitVec 32) {i : ℕ} (hi : i < LoadReg) :
    (m.raised badVAddr).registers i = loaded m.registers 0 0#32 i := by
  have hpending : Function.update m.registers BadVAddrReg badVAddr LoadReg = m.registers LoadReg :=
    Function.update_of_ne (by decide) _ _
  have hvalue : Function.update m.registers BadVAddrReg badVAddr LoadValueReg =
      m.registers LoadValueReg := Function.update_of_ne (by decide) _ _
  have hi' : Function.update m.registers BadVAddrReg badVAddr i = m.registers i :=
    Function.update_of_ne (hi.trans (by decide)).ne _ _
  have hraised := loaded_of_lt (Function.update m.registers BadVAddrReg badVAddr) 0 0#32 hi
  rw [hpending,hvalue,hi',← loaded_of_lt m.registers 0 0#32 hi] at hraised
  exact hraised

/-- `RaiseException` completes the load as well. -/
theorem agree_raised (m : Machine) (t : Translation) (badVAddr : BitVec 32) :
    Agree (raised { m with translation := t } badVAddr)
      (raised { m with registers := loaded m.registers 0 0#32,translation := t } badVAddr) := by
  have hsame : ∀ i < LoadReg,
      (raised { m with registers := loaded m.registers 0 0#32,translation := t }
        badVAddr).registers i = (raised { m with translation := t } badVAddr).registers i := by
    intro i hi
    rw [raised_of_lt _ _ hi,raised_of_lt _ _ hi]
    exact loaded_loaded m.registers hi
  exact ⟨fun i hi => hsame i (hi.trans (by decide)),hsame PCReg (by decide),
    hsame NextPCReg (by decide),rfl⟩

/-- An interrupt changes no register but the target of the load. -/
theorem loaded_of_ne (hm : RegistersOk f) {i : ℕ} (hi : i < LoadReg)
    (hne : i ≠ (f LoadReg).toNat) : loaded f 0 0#32 i = f i := by
  rw [loaded_of_lt f _ _ hi,if_neg hne]
  split_ifs with hzero
  · rw [hzero,hm.zero]
  · rfl

/-- `LWL` and `LWR` merge into the same value after an interrupt. -/
theorem merged_loaded (hm : RegistersOk m.registers) (hpending : (m.registers LoadReg).toNat ≠ 0)
    {instr : Instruction} (hrt : instr.rt < NumGPRegs) :
    (operands { m with registers := loaded m.registers 0 0#32 } instr).merged =
      (operands m instr).merged := by
  have hnone : (loaded m.registers 0 0#32 LoadReg).toNat = 0 := rfl
  have hrt : instr.rt < LoadReg := hrt.trans (by decide)
  simp only [operands]
  rw [hnone]
  by_cases htarget : (m.registers LoadReg).toNat = instr.rt
  · have hzero : instr.rt ≠ 0 := htarget ▸ hpending
    rw [if_pos htarget,if_neg hzero.symm,loaded_of_lt _ _ _ hrt,if_neg hzero,if_pos htarget.symm]
  · rw [if_neg htarget]
    by_cases hzero : 0 = instr.rt
    · rw [if_pos hzero,← hzero,hm.zero]
      rfl
    · rw [if_neg hzero,loaded_of_ne hm hrt (Ne.symm htarget)]

/-- The instruction finds the same operands after an interrupt. -/
theorem sameEffect_loaded (hm : RegistersOk m.registers)
    (hpending : (m.registers LoadReg).toNat ≠ 0)
    (hsources : ∀ instr, m.Fetches instr → (m.registers LoadReg).toNat ∉ instr.sources) :
    SameEffect m (loaded m.registers 0 0#32) where
  pc := loaded_of_le hm.load (by decide) (by decide)
  nextPC := loaded_of_le hm.load (by decide) (by decide)
  effect := by
    intro instr hfetch
    obtain ⟨hrs,hrt,_⟩ := hfetch.registers_lt
    have hnot := hsources instr hfetch
    unfold Instruction.sources at hnot
    have hkept : ∀ i, NumGPRegs ≤ i → i < LoadReg → loaded m.registers 0 0#32 i = m.registers i :=
      fun i => loaded_of_le hm.load
    apply Operands.effect_congr
    · intro hu
      refine loaded_of_ne hm (hrs.trans (by decide)) fun he => hnot ?_
      rw [hu,← he]
      exact List.mem_append_left _ List.mem_cons_self
    · intro hu
      refine loaded_of_ne hm (hrt.trans (by decide)) fun he => hnot ?_
      rw [hu,← he]
      exact List.mem_append_right _ List.mem_cons_self
    · exact hkept HiReg (by decide) (by decide)
    · exact hkept LoReg (by decide) (by decide)
    · exact hkept NextPCReg (by decide) (by decide)
    · exact merged_loaded hm hpending hrt

theorem Fetches.unique {instr instr' : Instruction} (h : m.Fetches instr) (h' : m.Fetches instr') :
    instr = instr' := by
  obtain ⟨raw,m₁,hread,rfl⟩ := h
  obtain ⟨raw',m₂,hread',rfl⟩ := h'
  cases hread.symm.trans hread'
  rfl

/-- The program counter alone decides which instruction is executed. -/
theorem Fetches.congr {instr : Instruction} (hset : m.translation.isSet = true)
    (h : m.Fetches instr) (hpc : f PCReg = m.registers PCReg) :
    Fetches { m with registers := f } instr := by
  obtain ⟨raw,m',hread,rfl⟩ := h
  rcases readMem_cases hset (m.registers PCReg) (Or.inr (Or.inr rfl)) with
    ⟨which,_,hraise⟩ | ⟨raw',i,hread'⟩
  · obtain ⟨trap,htrap⟩ := RaiseException_error m which (m.registers PCReg)
    cases ((hraise m.registers).trans (htrap _)).symm.trans hread
  · cases (hread' m.registers).symm.trans hread
    have hf := hread' f
    rw [← hpc] at hf
    exact ⟨raw,_,hf,rfl⟩

theorem complete_eq (hload : (m.registers LoadReg).toNat < NumGPRegs) :
    m.complete = .ok { m with registers := loaded m.registers 0 0#32 } :=
  DelayedLoad_eq (hload.trans (by decide)) 0 0#32

/-- The instruction and the completion of its own load. -/
theorem finish_complete (hload : (f LoadReg).toNat < NumGPRegs) (hws : ∀ w ∈ ws, w.1 < PCReg)
    (hnext : next < NumGPRegs) (b : Buffer) (t : Translation) (v pc : BitVec 32) :
    (finish ⟨⟨written f ws,b,t⟩,next,v,pc⟩ >>= complete) =
      .ok ⟨loaded (finished (written f ws) next v pc) 0 0#32,b,t⟩ := by
  have hpending : (written f ws LoadReg).toNat < NumTotalRegs := by
    rw [written_of_le hws (by decide)]
    exact hload.trans (by decide)
  have hfinish : finish ⟨⟨written f ws,b,t⟩,next,v,pc⟩ = _ := finish_eq hpending
  rw [hfinish]
  refine complete_eq (m := ⟨finished (written f ws) next v pc,b,t⟩) ?_
  rw [finished_load _ hnext]
  exact hnext

/-- An instruction that does not write the target of the pending load. -/
theorem transparent_of_destination (hm : RegistersOk m.registers)
    (hpending : (m.registers LoadReg).toNat ≠ 0) {instr : Instruction} (hfetch : m.Fetches instr)
    (hsources : (m.registers LoadReg).toNat ∉ instr.sources) (hcompletes : m.Completes)
    (hdestination : instr.destination ≠ some (m.registers LoadReg).toNat) : m.Transparent := by
  have hsame : SameEffect m (loaded m.registers 0 0#32) :=
    sameEffect_loaded hm hpending fun instr' hfetch' => hfetch.unique hfetch' ▸ hsources
  have hload := (loaded_ok m.registers (show 0 < NumGPRegs by decide) 0#32).load
  unfold Transparent
  rw [complete_eq hm.load]
  show SameOutcome _ (OneInstruction _ >>= complete)
  rcases OneInstruction_cases hcompletes.isSet with
    ⟨which,badVAddr,t,_,hraise⟩ | ⟨instr',hfetch',⟨b,t,next,v,pc,hnext,_,hdone⟩ | ⟨_,hdivide⟩⟩
  · have hbefore : m.OneInstruction = _ := hraise _ (.refl m)
    rw [hbefore,hraise _ hsame,RaiseException_bind,RaiseException_bind,
      RaiseException_eq (m := { m with translation := t }) (hm.load.trans (by decide)),
      RaiseException_eq (hload.trans (by decide))]
    exact ⟨rfl,agree_raised m t badVAddr⟩
  · cases hfetch.unique hfetch'
    obtain ⟨_,hrt,hrd⟩ := hfetch.registers_lt
    have hws := Effect.writes_lt ((operands m instr).effect_ok hrt hrd)
    have htarget : ∀ w ∈ ((operands m instr).effect instr).writes,
        w.1 ≠ (m.registers LoadReg).toNat := by
      intro w hw he
      exact hdestination (he ▸ Operands.destination_of_writes hw (he ▸ hm.load))
    have hnext : next < NumGPRegs := by
      rcases hnext with rfl | ⟨rfl,_⟩
      · decide
      · exact hrt
    have hbefore : m.OneInstruction = _ := hdone _ (.refl m)
    rw [hbefore,hdone _ hsame,finish_complete hm.load hws hnext,finish_complete hload hws hnext]
    exact agree_done hm.load hws htarget hnext b t t
  · rcases hcompletes with ⟨m',h⟩ | ⟨m',h⟩ <;> cases (hdivide _ (.refl m)).symm.trans h

theorem OneInstruction_effect {instr : Instruction} (hfetch : m.Fetches instr) :
    ∃ t, t.physical = m.translation.physical ∧ m.OneInstruction =
      apply { m with translation := t } instr.rt ((operands m instr).effect instr) >>= finish := by
  obtain ⟨raw,m',hread,rfl⟩ := hfetch
  obtain ⟨hregisters,hmemory,hphysical⟩ := readMem_frame hread
  have hoperands : operands m' (.Decode raw) = operands m (.Decode raw) := by
    simp only [operands,hregisters]
  refine ⟨m'.translation,hphysical,?_⟩
  rw [OneInstruction_fetched hread,hoperands,← hregisters,← hmemory]

/-- An instruction that writes registers and does nothing else. -/
theorem OneInstruction_write {instr : Instruction} (hfetch : m.Fetches instr)
    (he : (operands m instr).effect instr = .write ws pc) :
    ∃ t, m.OneInstruction = finish ⟨⟨written m.registers ws,m.mainMemory,t⟩,0,0#32,pc⟩ := by
  obtain ⟨t,_,hone⟩ := OneInstruction_effect hfetch
  rw [he] at hone
  exact ⟨t,hone⟩

theorem not_completes_of_overflow {instr : Instruction} (hfetch : m.Fetches instr)
    (he : (operands m instr).effect instr = .raise .overflowException) : ¬ m.Completes := by
  obtain ⟨t,_,hone⟩ := OneInstruction_effect hfetch
  rw [he] at hone
  have hraise : m.OneInstruction = RaiseException { m with translation := t } .overflowException
      0#32 := hone.trans (RaiseException_bind _ _ _ _)
  rintro (⟨m',h⟩ | ⟨m',h⟩)
  · obtain ⟨trap,htrap⟩ := RaiseException_error { m with translation := t } .overflowException 0#32
    cases (htrap _).symm.trans (hraise.symm.trans h)
  · cases (RaiseException_exception (hraise.symm.trans h)).1

/-- What becomes of the target of a pending load if the instruction writes it: with an
interrupt the result stays there, without it the load replaces the result. -/
theorem transparent_write (hm : RegistersOk m.registers)
    (hpending : (m.registers LoadReg).toNat ≠ 0) {instr : Instruction} (hfetch : m.Fetches instr)
    (hsources : (m.registers LoadReg).toNat ∉ instr.sources) {x : BitVec 32}
    (he : (operands m instr).effect instr = .write [((m.registers LoadReg).toNat,x)] pc)
    (hset : m.translation.isSet = true) (h : m.Transparent) : m.registers LoadValueReg = x := by
  have hsame : SameEffect m (loaded m.registers 0 0#32) :=
    sameEffect_loaded hm hpending fun instr' hfetch' => hfetch.unique hfetch' ▸ hsources
  have hload := (loaded_ok m.registers (show 0 < NumGPRegs by decide) 0#32).load
  have hlt : (m.registers LoadReg).toNat < PCReg := hm.load.trans (by decide)
  have hws : ∀ w ∈ [((m.registers LoadReg).toNat,x)], w.1 < PCReg := by
    intro w hw
    rw [List.mem_singleton.mp hw]
    exact hlt
  obtain ⟨t,hbefore⟩ := OneInstruction_write hfetch he
  obtain ⟨t',hafter⟩ := OneInstruction_write (hfetch.congr hset hsame.pc)
    ((hsame.effect instr hfetch).trans he)
  have hzero : 0 < NumGPRegs := by decide
  have h : SameOutcome (m.OneInstruction >>= complete)
      (OneInstruction { m with registers := loaded m.registers 0 0#32 } >>= complete) := by
    unfold Transparent at h
    rw [complete_eq hm.load] at h
    exact h
  rw [hbefore,hafter,finish_complete hm.load hws hzero,finish_complete hload hws hzero] at h
  have htarget : loaded _ _ _ _ = loaded _ _ _ _ := Agree.registers h _ hlt
  have hnone : (written (loaded m.registers 0 0#32) [((m.registers LoadReg).toNat,x)]
      LoadReg).toNat = 0 := by
    rw [written_of_le hws (by decide)]
    rfl
  rw [completed_of_lt _ hzero _ _ hlt,completed_of_lt _ hzero _ _ hlt,hnone,
    written_of_le (f := m.registers) (i := LoadReg) hws (by decide),
    written_of_le (f := m.registers) (i := LoadValueReg) hws (by decide),
    if_neg hpending,if_neg hpending,if_neg hpending,if_neg hpending,if_neg hpending,
    if_pos rfl] at htarget
  rw [← htarget]
  exact Function.update_self _ _ _

theorem operands_loading {instr : Instruction} (hrs : instr.rs < 32) (hrt : instr.rt < 32)
    (m : Machine) (value : BitVec 32) : operands (m.loading value) instr =
      { operands m instr with merged := (operands (m.loading value) instr).merged } := by
  have hrs := (hrs.trans (show 32 < LoadValueReg by decide)).ne
  have hrt := (hrt.trans (show 32 < LoadValueReg by decide)).ne
  simp only [operands,loading,Function.update_of_ne hrs,Function.update_of_ne hrt]
  rfl

/-- For an instruction that neither reads the target of the pending load nor faults, an
interrupt before it is transparent, whatever is being loaded, just if the instruction does
not write that register. -/
theorem interrupts_transparent_iff (hm : RegistersOk m.registers)
    (hpending : (m.registers LoadReg).toNat ≠ 0) {instr : Instruction} (hfetch : m.Fetches instr)
    (hsources : (m.registers LoadReg).toNat ∉ instr.sources) (hcompletes : m.Completes) :
    (∀ value, (m.loading value).Completes → (m.loading value).Transparent) ↔
      instr.destination ≠ some (m.registers LoadReg).toNat := by
  have hset := hcompletes.isSet
  have hm' : ∀ value, RegistersOk (m.loading value).registers := fun value =>
    hm.update (by decide) (by decide) value
  have hfetch' : ∀ value, (m.loading value).Fetches instr := fun value => hfetch.congr hset rfl
  constructor
  · intro hall hdestination
    rcases Operands.effect_of_destination (operands m instr) hdestination with ⟨x,pc,he⟩ | he
    · obtain ⟨hrs,hrt,_⟩ := hfetch.registers_lt
      have he' : (operands (m.loading (x + 1#32)) instr).effect instr =
          .write [((m.registers LoadReg).toNat,x)] pc := by
        rw [operands_loading hrs hrt,Operands.effect_merged _ hdestination,he]
      obtain ⟨t,hrun⟩ := OneInstruction_write (hfetch' (x + 1#32)) he'
      have hload : (written (m.loading (x + 1#32)).registers [((m.registers LoadReg).toNat,x)]
          LoadReg).toNat < NumTotalRegs := by
        rw [written_of_notMem]
        · exact hm.load.trans (by decide)
        · intro w hw
          rw [List.mem_singleton.mp hw]
          exact (hm.load.trans (by decide)).ne
      have hcompletes' : (m.loading (x + 1#32)).Completes :=
        Or.inl ⟨_,hrun.trans (finish_eq hload)⟩
      have hvalue : x + 1#32 = x := transparent_write (hm' _) hpending (hfetch' _) hsources he' hset
        (hall _ hcompletes')
      simp at hvalue
    · exact not_completes_of_overflow hfetch he hcompletes
  · intro hdestination value hcompletes'
    exact transparent_of_destination (hm' value) hpending (hfetch' value) hsources hcompletes'
      hdestination

/-- `addu $4,$0,$0` while 9 is being loaded into register 3. -/
theorem interrupts_transparent_iff_addu : ((pendingLoad 0x00002021#32).loading 9#32).Completes ∧
    ((pendingLoad 0x00002021#32).loading 9#32).Transparent := by
  have hcompletes : ((pendingLoad 0x00002021#32).loading 9#32).Completes := Or.inl ⟨_,rfl⟩
  exact ⟨hcompletes,(interrupts_transparent_iff (m := pendingLoad 0x00002021#32) ⟨rfl,by decide⟩
    (by decide) ⟨0x00002021#32,_,rfl,rfl⟩ (by decide) (Or.inl ⟨_,rfl⟩)).mpr (by decide) _ hcompletes⟩

/-- `addiu $3,$0,5` while 7 is being loaded into register 3: the result is 7 without an
interrupt, and 5 with one. -/
theorem interrupt_changes_result :
    RegistersOk (pendingLoad 0x24030005#32).registers ∧
    (pendingLoad 0x24030005#32).registers LoadReg = 3#32 ∧
    (∃ instr, (pendingLoad 0x24030005#32).Fetches instr ∧ 3 ∉ instr.sources) ∧
    (pendingLoad 0x24030005#32).Completes ∧ ¬ (pendingLoad 0x24030005#32).Transparent := by
  refine ⟨⟨rfl,by decide⟩,rfl,⟨_,⟨0x24030005#32,_,rfl,rfl⟩,by decide⟩,Or.inl ⟨_,rfl⟩,fun h => ?_⟩
  have hbefore : ∃ m, ((pendingLoad 0x24030005#32).OneInstruction >>= complete) = .ok m ∧
      m.registers 3 = 7#32 := by
    refine ⟨_,rfl,?_⟩
    rfl
  have hafter : ∃ m, ((pendingLoad 0x24030005#32).complete >>= fun m =>
      m.OneInstruction >>= complete) = .ok m ∧ m.registers 3 = 5#32 := by
    refine ⟨_,rfl,?_⟩
    rfl
  obtain ⟨m₁,hm₁,hseven⟩ := hbefore
  obtain ⟨m₂,hm₂,hfive⟩ := hafter
  unfold Transparent at h
  rw [hm₁,hm₂] at h
  have hsame : m₂.registers 3 = m₁.registers 3 := Agree.registers h 3 (by decide)
  rw [hseven,hfive] at hsame
  cases hsame

end Machine
end Hardware
end NachOS
