import NachOS.MipsSim

/-! What an instruction does once its operands are read: it writes registers and a program
counter, loads, stores, or raises an exception.  The cases of `OneInstruction` are put into
this form once, and everything else about instructions is derived from it. -/
namespace NachOS
namespace Hardware

open StateMachine hiding Machine
open OpCode Machine

/-- The values an instruction can depend on.  `merged` is what `LWL` and `LWR` take for the
old value of register `rt`. -/
structure Operands where
  rs : BitVec 32
  rt : BitVec 32
  hi : BitVec 32
  lo : BitVec 32
  nextPC : BitVec 32
  merged : BitVec 32

/-- `load` goes to register `rt`; `modify` reads a word and writes it back. -/
inductive Effect
  | write (writes : List (ℕ × BitVec 32)) (pcAfter : BitVec 32)
  | load (addr : BitVec 32) (size : ℕ) (value : BitVec 32 → BitVec 32)
  | store (addr : BitVec 32) (size : ℕ) (value : BitVec 32)
  | modify (addr : BitVec 32) (value : BitVec 32 → BitVec 32)
  | raise (which : ExceptionType)
  | divide

namespace Operands

variable (o : Operands) (instr : Instruction)

def pcAfter : BitVec 32 := o.nextPC + 4#32

/-- The result of an operation goes to a register. -/
def toReg (dest : ℕ) (value : BitVec 32) : Effect := .write [(dest,value)] o.pcAfter

def trapping (dest : ℕ) (value : BitVec 32) (overflow : Bool) : Effect :=
  if overflow then .raise .overflowException else o.toReg dest value

def toHiLo (p : BitVec 32 × BitVec 32) : Effect := .write [(LoReg,p.2),(HiReg,p.1)] o.pcAfter

def target (c : Bool) : BitVec 32 :=
  if c then o.nextPC + IndexToAddr instr.extra else o.pcAfter

def jumpTarget : BitVec 32 := o.pcAfter &&& 0xf0000000#32 ||| IndexToAddr instr.extra

/-- Register `rs` after the return address was stored in register `i`. -/
def rsAfterLink (i : ℕ) : BitVec 32 := if instr.rs = i then o.pcAfter else o.rs

def addr : BitVec 32 := o.rs + instr.extra

/-- The number of the byte in its word. -/
def byte : BitVec 32 := o.addr instr &&& 0x3#32

def loadByte (signed : Bool) : Effect := .load (o.addr instr) 1 fun value =>
  if value &&& 0x80#32 ≠ 0#32 ∧ signed = true then value ||| 0xffffff00#32
  else value &&& 0xff#32

def loadHalf (signed : Bool) : Effect := .load (o.addr instr) 2 fun value =>
  if value &&& 0x8000#32 ≠ 0#32 ∧ signed = true then value ||| 0xffff0000#32
  else value &&& 0xffff#32

def loadPart (merge : ℕ → BitVec 32 → BitVec 32 → BitVec 32) : Effect :=
  .load (o.addr instr - o.byte instr) 4 fun value =>
    merge (3 - (o.byte instr).toNat) o.merged value

def storePart (merge : ℕ → BitVec 32 → BitVec 32 → BitVec 32) : Effect :=
  .modify (o.addr instr - o.byte instr) fun value => merge (3 - (o.byte instr).toNat) value o.rt

def effect : Effect :=
  match instr.opCode with
  | OP_ADD => o.trapping instr.rd (o.rs + o.rt) (addOverflow o.rs o.rt (o.rs + o.rt))
  | OP_ADDI =>
    o.trapping instr.rt (o.rs + instr.extra) (addiOverflow o.rs instr.extra (o.rs + instr.extra))
  | OP_ADDIU => o.toReg instr.rt (o.rs + instr.extra)
  | OP_ADDU => o.toReg instr.rd (o.rs + o.rt)
  | OP_AND => o.toReg instr.rd (o.rs &&& o.rt)
  | OP_ANDI => o.toReg instr.rt (o.rs &&& (instr.extra &&& 0xffff#32))
  | OP_BEQ => .write [] (o.target instr (o.rs = o.rt))
  | OP_BGEZAL => .write [(R31,o.pcAfter)] (o.target instr (!signBit (o.rsAfterLink instr R31)))
  | OP_BGEZ => .write [] (o.target instr (!signBit o.rs))
  | OP_BGTZ => .write [] (o.target instr (BitVec.slt 0#32 o.rs))
  | OP_BLEZ => .write [] (o.target instr (BitVec.sle o.rs 0#32))
  | OP_BLTZAL => .write [(R31,o.pcAfter)] (o.target instr (signBit (o.rsAfterLink instr R31)))
  | OP_BLTZ => .write [] (o.target instr (signBit o.rs))
  | OP_BNE => .write [] (o.target instr (o.rs ≠ o.rt))
  | OP_DIV => if DivideTraps o.rs o.rt then .divide else o.toHiLo (divideSigned o.rs o.rt)
  | OP_DIVU => o.toHiLo (divideUnsigned o.rs o.rt)
  | OP_JAL => .write [(R31,o.pcAfter)] (o.jumpTarget instr)
  | OP_J => .write [] (o.jumpTarget instr)
  | OP_JALR => .write [(instr.rd,o.pcAfter)] (o.rsAfterLink instr instr.rd)
  | OP_JR => .write [] o.rs
  | OP_LB => o.loadByte instr true
  | OP_LBU => o.loadByte instr false
  | OP_LH => o.loadHalf instr true
  | OP_LHU => o.loadHalf instr false
  | OP_LUI => o.toReg instr.rt (instr.extra <<< 16)
  | OP_LW => .load (o.addr instr) 4 id
  | OP_LWL => o.loadPart instr mergeLWL
  | OP_LWR => o.loadPart instr mergeLWR
  | OP_MFHI => o.toReg instr.rd o.hi
  | OP_MFLO => o.toReg instr.rd o.lo
  | OP_MTHI => o.toReg HiReg o.rs
  | OP_MTLO => o.toReg LoReg o.rs
  | OP_MULT => o.toHiLo (Mult o.rs o.rt true)
  | OP_MULTU => o.toHiLo (Mult o.rs o.rt false)
  | OP_NOR => o.toReg instr.rd (~~~(o.rs ||| o.rt))
  | OP_OR => o.toReg instr.rd (o.rs ||| o.rt)
  | OP_ORI => o.toReg instr.rt (o.rs ||| (instr.extra &&& 0xffff#32))
  | OP_SB => .store (o.addr instr) 1 o.rt
  | OP_SH => .store (o.addr instr) 2 o.rt
  | OP_SLL => o.toReg instr.rd (o.rt <<< instr.extra.toNat)
  | OP_SLLV => o.toReg instr.rd (o.rt <<< (o.rs &&& 0x1f#32).toNat)
  | OP_SLT => o.toReg instr.rd (flag (o.rs.slt o.rt))
  | OP_SLTI => o.toReg instr.rt (flag (o.rs.slt instr.extra))
  | OP_SLTIU => o.toReg instr.rt (flag (o.rs.ult instr.extra))
  | OP_SLTU => o.toReg instr.rd (flag (o.rs.ult o.rt))
  | OP_SRA | OP_SRL => o.toReg instr.rd (o.rt.sshiftRight instr.extra.toNat)
  | OP_SRAV | OP_SRLV => o.toReg instr.rd (o.rt.sshiftRight (o.rs &&& 0x1f#32).toNat)
  | OP_SUB => o.trapping instr.rd (o.rs - o.rt) (subOverflow o.rs o.rt (o.rs - o.rt))
  | OP_SUBU => o.toReg instr.rd (o.rs - o.rt)
  | OP_SW => .store (o.addr instr) 4 o.rt
  | OP_SWL => o.storePart instr mergeSWL
  | OP_SWR => o.storePart instr mergeSWR
  | OP_SYSCALL => .raise .syscallException
  | OP_XOR => o.toReg instr.rd (o.rs ^^^ o.rt)
  | OP_XORI => o.toReg instr.rt (o.rs ^^^ (instr.extra &&& 0xffff#32))
  | OP_RES | OP_UNIMP | OP_RFE | SPECIAL | BCOND => .raise .illegalInstrException

end Operands

namespace Machine

def operands (m : Machine) (instr : Instruction) : Operands where
  rs := m.registers instr.rs
  rt := m.registers instr.rt
  hi := m.registers HiReg
  lo := m.registers LoReg
  nextPC := m.registers NextPCReg
  merged := if (m.registers LoadReg).toNat = instr.rt then m.registers LoadValueReg
    else m.registers instr.rt

/-- The registers after a list of writes. -/
def written (f : ℕ → BitVec 32) (ws : List (ℕ × BitVec 32)) : ℕ → BitVec 32 :=
  ws.foldl (fun f w => Function.update f w.1 w.2) f

def apply (m : Machine) (rt : ℕ) : Effect → Except Trap Next
  | .write ws pcAfter => .ok ⟨{ m with registers := written m.registers ws },0,0#32,pcAfter⟩
  | .load addr size value => do
    let (v,m') ← m.readMem addr size
    return ⟨m',rt,value v,m.registers NextPCReg + 4#32⟩
  | .store addr size value => do
    let m' ← m.writeMem addr size value
    return ⟨m',0,0#32,m.registers NextPCReg + 4#32⟩
  | .modify addr value => do
    let (v,m') ← m.readMem addr 4
    let m' ← m'.writeMem addr 4 (value v)
    return ⟨m',0,0#32,m.registers NextPCReg + 4#32⟩
  | .raise which => m.RaiseException which 0#32
  | .divide => .error .divide

@[simp] theorem reg_of_lt (m : Machine) {i : ℕ} (h : i < NumTotalRegs) :
    m.reg i = .ok (m.registers i) := if_pos h

@[simp] theorem setReg_of_lt (m : Machine) {i : ℕ} (value : BitVec 32) (h : i < NumTotalRegs) :
    m.setReg i value = .ok { m with registers := Function.update m.registers i value } := if_pos h

/-! Memory accesses change the use and dirty bits and the bytes written, and depend on no
register. -/

/-- An aligned access does not leave its page frame. -/
theorem physical_aligned {t : Translation} {x : BitVec 32} {writing : Bool} {i p size : ℕ}
    (h : t.physical x writing = .ok (i,p)) (hsize : size = 1 ∨ size = 2 ∨ size = 4)
    (halign : ¬ (size = 4 ∧ x.toNat % 4 ≠ 0 ∨ size = 2 ∧ x.toNat % 2 ≠ 0)) :
    p + size ≤ MemorySize := by
  obtain ⟨frame,hframe,rfl⟩ := Translation.physical_frame h
  simp only [NumPhysPages,PageSize,MemorySize] at hframe ⊢
  omega

/-- The use and dirty bits refuse no access. -/
theorem access_touch {m : Machine} {addr : BitVec 32} {size i : ℕ} {writing w : Bool}
    {e : ExceptionType} (h : access { m with translation := m.translation.touch i w } addr size
      writing = .ok (.error e)) : m.access addr size writing = .ok (.error e) := by
  rw [access_eq] at h ⊢
  rw [Translation.physical_touch,Translation.isSet_touch] at h
  split at h
  · next halign =>
    rw [if_pos halign]
    exact h
  · next halign =>
    obtain ⟨hset,h⟩ := check_bind_ok.mp h
    rw [if_neg halign,check_of hset]
    split at h
    · cases h
      rfl
    · obtain ⟨_,h⟩ := check_bind_ok.mp h
      cases h

theorem access_cases {m : Machine} (hset : m.translation.isSet = true) (addr : BitVec 32)
    {size : ℕ} (hsize : size = 1 ∨ size = 2 ∨ size = 4) (writing : Bool) :
    (∃ e, ∀ f, access { m with registers := f } addr size writing = .ok (.error e)) ∨
    ∃ p i, p + size ≤ MemorySize ∧ ∀ f, access { m with registers := f } addr size writing =
      .ok (.ok (p,{ m with registers := f,translation := m.translation.touch i writing })) := by
  simp only [access_eq]
  by_cases halign : size = 4 ∧ addr.toNat % 4 ≠ 0 ∨ size = 2 ∧ addr.toNat % 2 ≠ 0
  · exact Or.inl ⟨_,fun _ => if_pos halign⟩
  · simp only [if_neg halign,check_of hset,bind,Except.bind]
    cases hp : m.translation.physical addr writing with
    | error e => exact Or.inl ⟨e,fun _ => rfl⟩
    | ok r =>
      obtain ⟨i,p⟩ := r
      have hlt := physical_aligned hp hsize halign
      simp only [check_of hlt]
      exact Or.inr ⟨p,i,hlt,fun _ => rfl⟩

theorem readMem_cases {m : Machine} (hset : m.translation.isSet = true) (addr : BitVec 32)
    {size : ℕ} (hsize : size = 1 ∨ size = 2 ∨ size = 4) :
    (∃ e, m.access addr size false = .ok (.error e) ∧
      ∀ f, readMem { m with registers := f } addr size =
        RaiseException { m with registers := f } e addr) ∨
    ∃ v i, ∀ f, readMem { m with registers := f } addr size =
      .ok (v,{ m with registers := f,translation := m.translation.touch i false }) := by
  unfold readMem ReadMem
  rcases access_cases hset addr hsize false with ⟨e,he⟩ | ⟨p,i,_,hp⟩
  · refine Or.inl ⟨e,he m.registers,fun f => ?_⟩
    simp only [he,bind,Except.bind,pure,Except.pure]
  · refine Or.inr ?_
    simp only [hp,bind,Except.bind,pure,Except.pure]
    rcases hsize with rfl | rfl | rfl
    · exact ⟨_,i,fun f => rfl⟩
    · exact ⟨_,i,fun f => rfl⟩
    · exact ⟨_,i,fun f => rfl⟩

theorem writeMem_cases {m : Machine} (hset : m.translation.isSet = true) (addr : BitVec 32)
    {size : ℕ} (hsize : size = 1 ∨ size = 2 ∨ size = 4) (value : BitVec 32) :
    (∃ e, m.access addr size true = .ok (.error e) ∧
      ∀ f, writeMem { m with registers := f } addr size value =
        RaiseException { m with registers := f } e addr) ∨
    ∃ b t, ∀ f, writeMem { m with registers := f } addr size value =
      .ok { m with registers := f,mainMemory := b,translation := t } := by
  unfold writeMem WriteMem
  rcases access_cases hset addr hsize true with ⟨e,he⟩ | ⟨p,i,_,hp⟩
  · refine Or.inl ⟨e,he m.registers,fun f => ?_⟩
    simp only [he,bind,Except.bind,pure,Except.pure]
  · refine Or.inr ⟨store m.mainMemory p size value.toInt,m.translation.touch i true,fun f => ?_⟩
    simp only [hp,bind,Except.bind,pure,Except.pure,if_pos hsize]

theorem RaiseException_error (m : Machine) (which : ExceptionType) (badVAddr : BitVec 32) :
    ∃ trap, ∀ α, (m.RaiseException which badVAddr : Except Trap α) = .error trap := by
  unfold RaiseException
  cases m.setReg BadVAddrReg badVAddr with
  | error e => exact ⟨e,fun _ => rfl⟩
  | ok m =>
    simp only [bind,Except.bind]
    cases m.DelayedLoad 0 0#32 with
    | error e => exact ⟨e,fun _ => rfl⟩
    | ok m => exact ⟨.exception which m,fun _ => rfl⟩

/-- What would follow a raised exception is not executed. -/
theorem RaiseException_bind {α β : Type} (m : Machine) (which : ExceptionType)
    (badVAddr : BitVec 32) (k : α → Except Trap β) :
    (m.RaiseException which badVAddr >>= k) = m.RaiseException which badVAddr := by
  obtain ⟨trap,h⟩ := m.RaiseException_error which badVAddr
  rw [h α,h β]
  rfl

/-- Reading memory changes no register, no byte and no mapping. -/
theorem readMem_frame {m m' : Machine} {addr value : BitVec 32} {size : ℕ}
    (h : m.readMem addr size = .ok (value,m')) :
    m'.registers = m.registers ∧ m'.mainMemory = m.mainMemory ∧
      m'.translation.physical = m.translation.physical := by
  unfold readMem at h
  cases hread : m.ReadMem addr size with
  | error f =>
    rw [hread] at h
    cases h
  | ok r =>
    rw [hread] at h
    cases r with
    | error e =>
      obtain ⟨trap,hraise⟩ := m.RaiseException_error e addr
      cases (hraise _).symm.trans h
    | ok r =>
      obtain ⟨v,m₁⟩ := r
      cases h
      obtain ⟨r,ht,hread⟩ := bind_ok.mp hread
      cases r with
      | error e => cases hread
      | ok r =>
        obtain ⟨p,m₂⟩ := r
        obtain ⟨i,_,rfl⟩ := physical_of_access ht
        simp only at hread
        have hphysical := Translation.physical_touch m.translation i false
        split_ifs at hread <;> cases hread <;> exact ⟨rfl,rfl,hphysical⟩

theorem bind_congr_ok {α β : Type} {x : Except Trap α} {f g : α → Except Trap β}
    (h : ∀ a, x = .ok a → f a = g a) : (x >>= f) = x >>= g := by
  cases x with
  | error e => rfl
  | ok a => exact h a rfl

theorem readMem_misaligned (m : Machine) {addr : BitVec 32} {size : ℕ}
    (h : size = 4 ∧ addr.toNat % 4 ≠ 0 ∨ size = 2 ∧ addr.toNat % 2 ≠ 0) :
    m.readMem addr size = m.RaiseException .addressErrorException addr := by
  unfold readMem ReadMem
  rw [access_eq]
  rw [if_pos h]
  rfl

theorem and_one_ne_zero (x : BitVec 32) : x &&& 0x1#32 ≠ 0#32 ↔ x.toNat % 2 ≠ 0 := by
  rw [Ne,← BitVec.toNat_inj,BitVec.toNat_and]
  exact (Nat.and_one_is_mod x.toNat).symm ▸ Iff.rfl

theorem and_three_ne_zero (x : BitVec 32) : x &&& 0x3#32 ≠ 0#32 ↔ x.toNat % 4 ≠ 0 := by
  rw [Ne,← BitVec.toNat_inj,BitVec.toNat_and]
  exact (Nat.and_two_pow_sub_one_eq_mod x.toNat 2).symm ▸ Iff.rfl

/-! The cases of the `switch`, for an instruction that names general registers. -/

theorem reg_gp (m : Machine) {i : ℕ} (h : i < 32) : m.reg i = .ok (m.registers i) :=
  m.reg_of_lt (h.trans (by decide))

theorem setReg_gp (m : Machine) {i : ℕ} (value : BitVec 32) (h : i < 32) :
    m.setReg i value = .ok { m with registers := Function.update m.registers i value } :=
  m.setReg_of_lt value (h.trans (by decide))

section Cases

variable (m : Machine) {instr : Instruction}

theorem registerOp_eq (hrs : instr.rs < 32) (hrt : instr.rt < 32) (hrd : instr.rd < 32)
    (f : BitVec 32 → BitVec 32 → BitVec 32) :
    m.registerOp instr (m.operands instr).pcAfter f = m.apply instr.rt
      ((m.operands instr).toReg instr.rd (f (m.registers instr.rs) (m.registers instr.rt))) := by
  unfold registerOp
  rw [reg_gp m hrs,reg_gp m hrt]
  simp only [bind,Except.bind,setReg_gp m _ hrd]
  rfl

theorem immediateOp_eq (hrs : instr.rs < 32) (hrt : instr.rt < 32)
    (f : BitVec 32 → BitVec 32 → BitVec 32) :
    m.immediateOp instr (m.operands instr).pcAfter f = m.apply instr.rt
      ((m.operands instr).toReg instr.rt (f (m.registers instr.rs) instr.extra)) := by
  unfold immediateOp
  rw [reg_gp m hrs]
  simp only [bind,Except.bind,setReg_gp m _ hrt]
  rfl

theorem shiftOp_eq (hrt : instr.rt < 32) (hrd : instr.rd < 32) (f : BitVec 32 → ℕ → BitVec 32) :
    m.shiftOp instr (m.operands instr).pcAfter f = m.apply instr.rt
      ((m.operands instr).toReg instr.rd (f (m.registers instr.rt) instr.extra.toNat)) := by
  unfold shiftOp
  rw [reg_gp m hrt]
  simp only [bind,Except.bind,setReg_gp m _ hrd]
  rfl

theorem trappingOp_eq {dest : ℕ} (hdest : dest < 32) (a b : BitVec 32)
    (f : BitVec 32 → BitVec 32 → BitVec 32)
    (overflow : BitVec 32 → BitVec 32 → BitVec 32 → Bool) :
    m.trappingOp (m.operands instr).pcAfter dest a b f overflow = m.apply instr.rt
      ((m.operands instr).trapping dest (f a b) (overflow a b (f a b))) := by
  unfold trappingOp Operands.trapping
  cases overflow a b (f a b) with
  | false =>
    simp only [setReg_gp m _ hdest]
    rfl
  | true => rfl

theorem hiLoOp_eq (hrs : instr.rs < 32) (hrt : instr.rt < 32)
    (f : BitVec 32 → BitVec 32 → BitVec 32 × BitVec 32) :
    m.hiLoOp instr (m.operands instr).pcAfter f = m.apply instr.rt
      ((m.operands instr).toHiLo (f (m.registers instr.rs) (m.registers instr.rt))) := by
  unfold hiLoOp
  rw [reg_gp m hrs,reg_gp m hrt]
  rfl

theorem branchOp_eq (hrs : instr.rs < 32) (c : BitVec 32 → Bool) :
    m.branchOp instr (m.operands instr).pcAfter c = m.apply instr.rt
      (.write [] ((m.operands instr).target instr (c (m.registers instr.rs)))) := by
  unfold branchOp
  rw [reg_gp m hrs]
  simp only [bind,Except.bind,Operands.target]
  cases c (m.registers instr.rs) <;> rfl

/-- A branch that stores the return address first, and then tests. -/
theorem branchOp_link (hrs : instr.rs < 32) (c : BitVec 32 → Bool) :
    (m.link R31 >>= fun m' => m'.branchOp instr (m.operands instr).pcAfter c) = m.apply instr.rt
      (.write [(R31,(m.operands instr).pcAfter)] ((m.operands instr).target instr
        (c ((m.operands instr).rsAfterLink instr R31)))) := by
  let m' : Machine := { m with registers := written m.registers [(R31,(m.operands instr).pcAfter)] }
  have hlink : m.link R31 = .ok m' := rfl
  have hrs' : m'.registers instr.rs = (m.operands instr).rsAfterLink instr R31 := by
    simp [m',written,Operands.rsAfterLink,operands,Function.update_apply]
  rw [hlink]
  refine (branchOp_eq m' hrs c).trans ?_
  rw [hrs']
  rfl

theorem loadByte_eq (hrs : instr.rs < 32) (signed : Bool) :
    m.loadByte instr (m.operands instr).pcAfter signed =
      m.apply instr.rt ((m.operands instr).loadByte instr signed) := by
  unfold loadByte
  rw [reg_gp m hrs]
  rfl

theorem loadHalf_eq (hrs : instr.rs < 32) (signed : Bool) :
    m.loadHalf instr (m.operands instr).pcAfter signed =
      m.apply instr.rt ((m.operands instr).loadHalf instr signed) := by
  unfold loadHalf
  rw [reg_gp m hrs]
  simp only [bind,Except.bind]
  split
  · next h =>
    have hread := readMem_misaligned m (Or.inr ⟨rfl,(and_one_ne_zero _).mp h⟩)
    exact ((congrArg (· >>= _) hread).trans (RaiseException_bind m _ _ _)).symm
  · rfl

theorem loadPart_eq (hrs : instr.rs < 32) (hrt : instr.rt < 32)
    (merge : ℕ → BitVec 32 → BitVec 32 → BitVec 32) :
    m.loadPart instr (m.operands instr).pcAfter merge =
      m.apply instr.rt ((m.operands instr).loadPart instr merge) := by
  unfold loadPart
  rw [reg_gp m hrs]
  refine bind_congr_ok (x := m.readMem ((m.operands instr).addr instr -
    (m.operands instr).byte instr) 4) fun r hr => ?_
  obtain ⟨value,m'⟩ := r
  have hframe := (readMem_frame hr).1
  simp only [reg_gp m' hrt,reg_of_lt m' (show LoadReg < NumTotalRegs by decide),
    reg_of_lt m' (show LoadValueReg < NumTotalRegs by decide),hframe,bind,Except.bind]
  simp only [operands]
  split <;> rfl

theorem storeOp_eq (hrs : instr.rs < 32) (hrt : instr.rt < 32) (size : ℕ) :
    m.storeOp instr (m.operands instr).pcAfter size =
      m.apply instr.rt (.store ((m.operands instr).addr instr) size (m.registers instr.rt)) := by
  unfold storeOp
  rw [reg_gp m hrs,reg_gp m hrt]
  rfl

theorem storePart_eq (hrs : instr.rs < 32) (hrt : instr.rt < 32)
    (merge : ℕ → BitVec 32 → BitVec 32 → BitVec 32) :
    m.storePart instr (m.operands instr).pcAfter merge =
      m.apply instr.rt ((m.operands instr).storePart instr merge) := by
  unfold storePart
  rw [reg_gp m hrs]
  refine bind_congr_ok (x := m.readMem ((m.operands instr).addr instr -
    (m.operands instr).byte instr) 4) fun r hr => ?_
  obtain ⟨value,m'⟩ := r
  simp only [reg_gp m' hrt,(readMem_frame hr).1]
  rfl

/-- Every case of the `switch` is its effect on the operands. -/
theorem execute_eq (hop : instr.opCode.HasCase) (hrs : instr.rs < 32) (hrt : instr.rt < 32)
    (hrd : instr.rd < 32) :
    m.execute instr = m.apply instr.rt ((m.operands instr).effect instr) := by
  have hnext : m.reg NextPCReg = .ok (m.registers NextPCReg) := m.reg_of_lt (by decide)
  unfold execute Operands.effect
  simp only [hnext,bind,Except.bind]
  cases hc : instr.opCode with
  | OP_ADDU | OP_AND | OP_NOR | OP_OR | OP_SLLV | OP_SLT | OP_SLTU | OP_SRAV | OP_SRLV | OP_SUBU
    | OP_XOR => exact registerOp_eq m hrs hrt hrd _
  | OP_ADDIU | OP_ANDI | OP_ORI | OP_SLTI | OP_SLTIU | OP_XORI => exact immediateOp_eq m hrs hrt _
  | OP_SLL | OP_SRA | OP_SRL => exact shiftOp_eq m hrt hrd _
  | OP_ADD | OP_SUB =>
    simp only [reg_gp m hrs,reg_gp m hrt]
    exact trappingOp_eq m hrd _ _ _ _
  | OP_ADDI =>
    simp only [reg_gp m hrs]
    exact trappingOp_eq m hrt _ _ _ _
  | OP_BEQ | OP_BNE =>
    simp only [reg_gp m hrt]
    exact branchOp_eq m hrs _
  | OP_BGEZ | OP_BGTZ | OP_BLEZ | OP_BLTZ => exact branchOp_eq m hrs _
  | OP_BGEZAL | OP_BLTZAL => exact branchOp_link m hrs _
  | OP_DIV =>
    simp only [reg_gp m hrs,reg_gp m hrt]
    by_cases h : DivideTraps (m.operands instr).rs (m.operands instr).rt
    · rw [if_pos h]
      exact if_pos h
    · rw [if_neg h]
      exact (if_neg h).trans (hiLoOp_eq m hrs hrt divideSigned)
  | OP_DIVU | OP_MULT | OP_MULTU => exact hiLoOp_eq m hrs hrt _
  | OP_J | OP_JAL | OP_SYSCALL | OP_RES | OP_UNIMP => rfl
  | OP_JR =>
    simp only [reg_gp m hrs]
    rfl
  | OP_JALR =>
    let m' : Machine :=
      { m with registers := written m.registers [(instr.rd,(m.operands instr).pcAfter)] }
    have hlink : m.link instr.rd = .ok m' := m.setReg_gp _ hrd
    have hrs' : m'.registers instr.rs = (m.operands instr).rsAfterLink instr instr.rd := by
      simp [m',written,Operands.rsAfterLink,operands,Function.update_apply]
    simp only [hlink,reg_gp m' hrs,hrs']
    rfl
  | OP_LB | OP_LBU => exact loadByte_eq m hrs _
  | OP_LH | OP_LHU => exact loadHalf_eq m hrs _
  | OP_LW =>
    simp only [reg_gp m hrs]
    split
    · next h =>
      have hread := readMem_misaligned m (Or.inl ⟨rfl,(and_three_ne_zero _).mp h⟩)
      exact ((congrArg (· >>= _) hread).trans (RaiseException_bind m _ _ _)).symm
    · rfl
  | OP_LWL | OP_LWR => exact loadPart_eq m hrs hrt _
  | OP_LUI =>
    simp only [setReg_gp m _ hrt]
    rfl
  | OP_MFHI | OP_MFLO =>
    simp only [reg_of_lt m (show HiReg < NumTotalRegs by decide),
      reg_of_lt m (show LoReg < NumTotalRegs by decide),setReg_gp m _ hrd]
    rfl
  | OP_MTHI | OP_MTLO =>
    simp only [reg_gp m hrs]
    rfl
  | OP_SB | OP_SH | OP_SW => exact storeOp_eq m hrs hrt _
  | OP_SWL | OP_SWR => exact storePart_eq m hrs hrt _
  | OP_RFE | SPECIAL | BCOND => exact absurd (hc ▸ hop) (by decide)

end Cases

/-! The delayed load. -/

/-- The registers after `DelayedLoad`. -/
def loaded (f : ℕ → BitVec 32) (nextReg : ℕ) (nextValue : BitVec 32) : ℕ → BitVec 32 :=
  Function.update (Function.update (Function.update
    (Function.update f (f LoadReg).toNat (f LoadValueReg))
      LoadReg (BitVec.ofNat 32 nextReg)) LoadValueReg nextValue) 0 0#32

/-- The registers of a user program between two instructions. -/
structure RegistersOk (f : ℕ → BitVec 32) : Prop where
  zero : f 0 = 0#32
  load : (f LoadReg).toNat < NumGPRegs

/-- The machine that `ExceptionHandler` finds. -/
def raised (m : Machine) (badVAddr : BitVec 32) : Machine :=
  { m with registers := loaded (Function.update m.registers BadVAddrReg badVAddr) 0 0#32 }

/-- The registers after an instruction. -/
def finished (f : ℕ → BitVec 32) (next : ℕ) (value pcAfter : BitVec 32) : ℕ → BitVec 32 :=
  let g := loaded f next value
  Function.update (Function.update (Function.update g PrevPCReg (g PCReg)) PCReg (g NextPCReg))
    NextPCReg pcAfter

variable {m : Machine}

theorem DelayedLoad_eq (h : (m.registers LoadReg).toNat < NumTotalRegs) (nextReg : ℕ)
    (nextValue : BitVec 32) :
    m.DelayedLoad nextReg nextValue =
      .ok { m with registers := loaded m.registers nextReg nextValue } := by
  unfold DelayedLoad
  rw [reg_of_lt m (show LoadReg < NumTotalRegs by decide),
    reg_of_lt m (show LoadValueReg < NumTotalRegs by decide)]
  refine bind_ok.mpr ⟨_,rfl,bind_ok.mpr ⟨_,rfl,bind_ok.mpr ⟨_,setReg_of_lt _ _ h,?_⟩⟩⟩
  rfl

/-- The simulator's own array is left if the target of the load is no register. -/
theorem DelayedLoad_undefined (h : ¬ (m.registers LoadReg).toNat < NumTotalRegs) (nextReg : ℕ)
    (nextValue : BitVec 32) : m.DelayedLoad nextReg nextValue = .error (.fault .undefined) := by
  unfold DelayedLoad setReg
  rw [reg_of_lt m (show LoadReg < NumTotalRegs by decide),
    reg_of_lt m (show LoadValueReg < NumTotalRegs by decide)]
  simp only [bind,Except.bind,if_neg h]

theorem RaiseException_eq {α : Type} (h : (m.registers LoadReg).toNat < NumTotalRegs)
    (which : ExceptionType) (badVAddr : BitVec 32) :
    (m.RaiseException which badVAddr : Except Trap α) =
      .error (.exception which (m.raised badVAddr)) := by
  unfold RaiseException
  rw [setReg_of_lt m _ (show BadVAddrReg < NumTotalRegs by decide)]
  simp only [bind,Except.bind]
  rw [DelayedLoad_eq]
  · rfl
  · simp only [Function.update_of_ne (show LoadReg ≠ BadVAddrReg by decide)]
    exact h

theorem RaiseException_exception {α : Type} {which which' : ExceptionType} {badVAddr : BitVec 32}
    {m' : Machine}
    (h : (m.RaiseException which badVAddr : Except Trap α) = .error (.exception which' m')) :
    which' = which ∧ m' = m.raised badVAddr := by
  by_cases hload : (m.registers LoadReg).toNat < NumTotalRegs
  · rw [RaiseException_eq hload] at h
    cases h
    exact ⟨rfl,rfl⟩
  · unfold RaiseException at h
    rw [setReg_of_lt m _ (show BadVAddrReg < NumTotalRegs by decide)] at h
    simp only [bind,Except.bind] at h
    rw [DelayedLoad_undefined] at h
    · cases h
    · simp only [Function.update_of_ne (show LoadReg ≠ BadVAddrReg by decide)]
      exact hload

theorem finish_eq {next : Next} (h : (next.machine.registers LoadReg).toNat < NumTotalRegs) :
    finish next = .ok ⟨finished next.machine.registers next.nextLoadReg next.nextLoadValue
      next.pcAfter,next.machine.mainMemory,next.machine.translation⟩ := by
  unfold finish
  rw [DelayedLoad_eq h]
  rfl

theorem finish_not_exception {next : Next} {which : ExceptionType} {m' : Machine} :
    finish next ≠ .error (.exception which m') := by
  by_cases hload : (next.machine.registers LoadReg).toNat < NumTotalRegs
  · rw [finish_eq hload]
    intro h
    cases h
  · unfold finish
    rw [DelayedLoad_undefined hload]
    intro h
    cases h

/-! What the effects can be. -/

end Machine

namespace Effect

/-- The registers that are written at once. -/
def writes : Effect → List (ℕ × BitVec 32)
  | .write ws _ => ws
  | _ => []

/-- Writes go to the general registers and to Hi and Lo, accesses are of the sizes that the
memory has, and an exception that no access causes is one of three. -/
def Ok : Effect → Prop
  | .write ws _ => ∀ w ∈ ws, w.1 < PCReg
  | .load _ size _ | .store _ size _ => size = 1 ∨ size = 2 ∨ size = 4
  | .raise which => which = .syscallException ∨ which = .overflowException ∨
      which = .illegalInstrException
  | _ => True

/-- The accesses that an effect makes: address, size and direction. -/
def Accesses : Effect → BitVec 32 → ℕ → Bool → Prop
  | .load addr size _,a,n,writing => a = addr ∧ n = size ∧ writing = false
  | .store addr size _,a,n,writing => a = addr ∧ n = size ∧ writing = true
  | .modify addr _,a,n,_ => a = addr ∧ n = 4
  | _,_,_,_ => False

end Effect

namespace Operands

variable {instr : Instruction} (o : Operands)

theorem toReg_ok {dest : ℕ} (h : dest < PCReg) (value : BitVec 32) : (o.toReg dest value).Ok := by
  intro w hw
  rw [List.mem_singleton.mp hw]
  exact h

theorem trapping_ok {dest : ℕ} (h : dest < PCReg) (value : BitVec 32) (overflow : Bool) :
    (o.trapping dest value overflow).Ok := by
  cases overflow with
  | false => exact o.toReg_ok h value
  | true => exact Or.inr (Or.inl rfl)

theorem toHiLo_ok (p : BitVec 32 × BitVec 32) : (o.toHiLo p).Ok := by
  intro w hw
  simp only [List.mem_cons,List.not_mem_nil,or_false] at hw
  rcases hw with rfl | rfl
  · exact (by decide : LoReg < PCReg)
  · exact (by decide : HiReg < PCReg)

theorem effect_ok (hrt : instr.rt < 32) (hrd : instr.rd < 32) : (o.effect instr).Ok := by
  have hrt : instr.rt < PCReg := hrt.trans (by decide)
  have hrd : instr.rd < PCReg := hrd.trans (by decide)
  unfold effect
  cases instr.opCode with
  | OP_ADD | OP_SUB => exact o.trapping_ok hrd _ _
  | OP_ADDI => exact o.trapping_ok hrt _ _
  | OP_ADDIU | OP_ANDI | OP_LUI | OP_ORI | OP_SLTI | OP_SLTIU | OP_XORI => exact o.toReg_ok hrt _
  | OP_ADDU | OP_AND | OP_MFHI | OP_MFLO | OP_NOR | OP_OR | OP_SLL | OP_SLLV | OP_SLT | OP_SLTU
    | OP_SRA | OP_SRAV | OP_SRL | OP_SRLV | OP_SUBU | OP_XOR => exact o.toReg_ok hrd _
  | OP_MTHI | OP_MTLO => exact o.toReg_ok (by decide) _
  | OP_JALR => exact o.toReg_ok hrd _
  | OP_BGEZAL | OP_BLTZAL | OP_JAL => exact o.toReg_ok (show R31 < PCReg by decide) o.pcAfter
  | OP_DIV =>
    show Effect.Ok (if DivideTraps o.rs o.rt then .divide else o.toHiLo (divideSigned o.rs o.rt))
    split
    · trivial
    · exact o.toHiLo_ok _
  | OP_DIVU | OP_MULT | OP_MULTU => exact o.toHiLo_ok _
  | OP_BEQ | OP_BGEZ | OP_BGTZ | OP_BLEZ | OP_BLTZ | OP_BNE | OP_J | OP_JR =>
    exact fun w hw => absurd hw List.not_mem_nil
  | OP_LB | OP_LBU | OP_SB => exact Or.inl rfl
  | OP_LH | OP_LHU | OP_SH => exact Or.inr (Or.inl rfl)
  | OP_LW | OP_LWL | OP_LWR | OP_SW => exact Or.inr (Or.inr rfl)
  | OP_SWL | OP_SWR => trivial
  | OP_SYSCALL => exact Or.inl rfl
  | OP_RES | OP_UNIMP | OP_RFE | SPECIAL | BCOND => exact Or.inr (Or.inr rfl)

theorem trapping_not_accesses {dest size : ℕ} {value a : BitVec 32} {overflow writing : Bool} :
    ¬ (o.trapping dest value overflow).Accesses a size writing := by
  cases overflow <;> exact id

/-- An effect accesses memory where its instruction says. -/
theorem effect_accesses {a : BitVec 32} {size : ℕ} {writing : Bool}
    (h : (o.effect instr).Accesses a size writing) :
    instr.opCode.Accesses size writing ∧ a = instr.accessed o.rs := by
  unfold effect at h
  unfold Instruction.accessed
  cases hop : instr.opCode with
  | OP_LB | OP_LBU | OP_LH | OP_LHU | OP_LW | OP_LWL | OP_LWR | OP_SB | OP_SH | OP_SW =>
    rw [hop] at h
    exact ⟨h.2,h.1⟩
  | OP_SWL | OP_SWR =>
    rw [hop] at h
    exact ⟨h.2,h.1⟩
  | OP_ADD | OP_ADDI | OP_SUB =>
    rw [hop] at h
    exact absurd h o.trapping_not_accesses
  | OP_DIV =>
    rw [hop] at h
    simp only at h
    split at h <;> exact h.elim
  | _ =>
    rw [hop] at h
    exact h.elim

end Operands

namespace Machine

/-- An effect completes, raises an exception before anything but use bits has changed, or
stops the simulator; what it does to memory does not depend on the registers. -/
theorem apply_cases {m : Machine} (hset : m.translation.isSet = true) {e : Effect} (he : e.Ok)
    (rt : ℕ) :
    (∃ b t next v pc, (next = 0 ∨ next = rt ∧ e.writes = []) ∧ (∀ which, e ≠ .raise which) ∧
      ∀ f, f NextPCReg = m.registers NextPCReg → apply { m with registers := f } rt e =
        .ok ⟨⟨written f e.writes,b,t⟩,next,v,pc⟩) ∨
    (∃ which a t, (e = .raise which ∧ a = 0#32 ∨ ∃ size writing, e.Accesses a size writing ∧
        m.access a size writing = .ok (.error which)) ∧
      ∀ f, apply { m with registers := f } rt e =
        RaiseException { m with registers := f,translation := t } which a) ∨
    e = .divide := by
  cases e with
  | write ws pc =>
    exact Or.inl ⟨m.mainMemory,m.translation,0,0#32,pc,Or.inl rfl,nofun,fun f _ => rfl⟩
  | load addr size value =>
    rcases readMem_cases hset addr he with ⟨which,ht,hread⟩ | ⟨v,i,hread⟩
    · refine Or.inr (Or.inl ⟨which,addr,m.translation,Or.inr ⟨size,false,⟨rfl,rfl,rfl⟩,ht⟩,
        fun f => ?_⟩)
      simp only [apply,hread]
      exact RaiseException_bind _ _ _ _
    · refine Or.inl ⟨m.mainMemory,m.translation.touch i false,rt,value v,
        m.registers NextPCReg + 4#32,Or.inr ⟨rfl,rfl⟩,nofun,fun f hf => ?_⟩
      simp only [apply,hread,← hf]
      rfl
  | store addr size value =>
    rcases writeMem_cases hset addr he value with ⟨which,ht,hwrite⟩ | ⟨b,t,hwrite⟩
    · refine Or.inr (Or.inl ⟨which,addr,m.translation,Or.inr ⟨size,true,⟨rfl,rfl,rfl⟩,ht⟩,
        fun f => ?_⟩)
      simp only [apply,hwrite]
      exact RaiseException_bind _ _ _ _
    · refine Or.inl ⟨b,t,0,0#32,m.registers NextPCReg + 4#32,Or.inl rfl,nofun,fun f hf => ?_⟩
      simp only [apply,hwrite,← hf]
      rfl
  | modify addr value =>
    rcases readMem_cases hset addr (Or.inr (Or.inr rfl)) with ⟨which,ht,hread⟩ | ⟨v,i,hread⟩
    · refine Or.inr (Or.inl ⟨which,addr,m.translation,Or.inr ⟨4,false,⟨rfl,rfl⟩,ht⟩,fun f => ?_⟩)
      simp only [apply,hread]
      exact RaiseException_bind _ _ _ _
    · have hset' := (Translation.isSet_touch m.translation i false).trans hset
      rcases writeMem_cases (m := { m with translation := m.translation.touch i false }) hset' addr
        (Or.inr (Or.inr rfl)) (value v) with ⟨which,ht,hwrite⟩ | ⟨b,t',hwrite⟩
      · refine Or.inr (Or.inl ⟨which,addr,m.translation.touch i false,
          Or.inr ⟨4,true,⟨rfl,rfl⟩,access_touch ht⟩,fun f => ?_⟩)
        simp only [apply,hread,bind,Except.bind] at hwrite ⊢
        rw [hwrite]
        exact RaiseException_bind _ _ _ _
      · refine Or.inl ⟨b,t',0,0#32,m.registers NextPCReg + 4#32,Or.inl rfl,nofun,fun f hf => ?_⟩
        simp only [apply,hread,bind,Except.bind,← hf] at hwrite ⊢
        rw [hwrite]
        rfl
  | raise which => exact Or.inr (Or.inl ⟨which,0#32,m.translation,Or.inl ⟨rfl,rfl⟩,fun f => rfl⟩)
  | divide => exact Or.inr (Or.inr rfl)

/-- The instruction at the program counter. -/
def Fetches (m : Machine) (instr : Instruction) : Prop :=
  ∃ raw m', m.readMem (m.registers PCReg) 4 = .ok (raw,m') ∧ instr = .Decode raw

/-- What the handler of an exception is told: the program counter if the fetch failed, the
address of the instruction's own access if that failed, and zero if no access did. -/
inductive Reports (m : Machine) : ExceptionType → BitVec 32 → Prop
  | fetch {which : ExceptionType}
      (refused : m.access (m.registers PCReg) 4 false = .ok (.error which)) :
      Reports m which (m.registers PCReg)
  | access {which : ExceptionType} {instr : Instruction} {size : ℕ} {writing : Bool}
      (fetched : m.Fetches instr) (accesses : instr.opCode.Accesses size writing)
      (refused : m.access (instr.accessed (m.registers instr.rs)) size writing =
        .ok (.error which)) :
      Reports m which (instr.accessed (m.registers instr.rs))
  | other {which : ExceptionType} {instr : Instruction} (fetched : m.Fetches instr)
      (kind : which = .syscallException ∨ which = .overflowException ∨
        which = .illegalInstrException) :
      Reports m which 0#32

/-- With the registers `f` the same instruction is executed, and has the same effect. -/
structure SameEffect (m : Machine) (f : ℕ → BitVec 32) : Prop where
  pc : f PCReg = m.registers PCReg
  nextPC : f NextPCReg = m.registers NextPCReg
  effect : ∀ instr, m.Fetches instr →
    (operands { m with registers := f } instr).effect instr = (operands m instr).effect instr

theorem SameEffect.refl (m : Machine) : SameEffect m m.registers := ⟨rfl,rfl,fun _ _ => rfl⟩

/-- `OneInstruction` after the fetch. -/
theorem OneInstruction_fetched {m m' : Machine} {raw : BitVec 32}
    (h : m.readMem (m.registers PCReg) 4 = .ok (raw,m')) :
    m.OneInstruction = m'.apply (Instruction.Decode raw).rt
      ((operands m' (.Decode raw)).effect (.Decode raw)) >>= finish := by
  obtain ⟨hrs,hrt,hrd⟩ := Instruction.decode_registers raw
  have hexecute := execute_eq m' (Instruction.decode_hasCase raw) hrs hrt hrd
  unfold OneInstruction
  rw [reg_of_lt m (show PCReg < NumTotalRegs by decide)]
  simp only [bind,Except.bind] at h ⊢
  rw [h]
  simp only [hexecute]

/-- An instruction raises an exception before anything but use bits has changed, completes,
or stops the simulator, and this depends on the registers through its effect only. -/
theorem OneInstruction_cases {m : Machine} (hset : m.translation.isSet = true) :
    (∃ which badVAddr t, Reports m which badVAddr ∧ ∀ f, SameEffect m f →
      OneInstruction { m with registers := f } =
        RaiseException { m with registers := f,translation := t } which badVAddr) ∨
    ∃ instr, m.Fetches instr ∧
      ((∃ b t next v pc,
        (next = 0 ∨ next = instr.rt ∧ ((operands m instr).effect instr).writes = []) ∧
        (∀ which, (operands m instr).effect instr ≠ .raise which) ∧ ∀ f, SameEffect m f →
        OneInstruction { m with registers := f } =
          finish ⟨⟨written f ((operands m instr).effect instr).writes,b,t⟩,next,v,pc⟩) ∨
      (operands m instr).effect instr = .divide ∧ ∀ f, SameEffect m f →
        OneInstruction { m with registers := f } = .error .divide) := by
  rcases readMem_cases hset (m.registers PCReg) (Or.inr (Or.inr rfl)) with
    ⟨which,ht,hread⟩ | ⟨raw,i,hread⟩
  · refine Or.inl ⟨which,m.registers PCReg,m.translation,.fetch ht,fun f hf => ?_⟩
    unfold OneInstruction
    rw [reg_of_lt _ (show PCReg < NumTotalRegs by decide)]
    simp only [bind,Except.bind,hf.pc]
    rw [hread]
    exact RaiseException_bind _ _ _ _
  · have hfetch : m.Fetches (.Decode raw) := ⟨raw,_,hread m.registers,rfl⟩
    obtain ⟨_,hrt,hrd⟩ := Instruction.decode_registers raw
    have hok := (operands m (.Decode raw)).effect_ok hrt hrd
    -- the effect is the one that the instruction has with the registers of `m`
    have hone : ∀ f, SameEffect m f → OneInstruction { m with registers := f } =
        apply { m with registers := f,translation := m.translation.touch i false }
          (Instruction.Decode raw).rt ((operands m (.Decode raw)).effect (.Decode raw)) >>=
        finish := by
      intro f hf
      rw [← hf.effect _ hfetch]
      have hpc := hread f
      rw [← hf.pc] at hpc
      exact OneInstruction_fetched hpc
    rcases apply_cases (m := { m with translation := m.translation.touch i false })
      ((Translation.isSet_touch m.translation i false).trans hset) hok
      (Instruction.Decode raw).rt with
      ⟨b,t,next,v,pc,hnext,hne,hdone⟩ | ⟨which,badVAddr,t,hreason,hraise⟩ | hdivide
    · refine Or.inr ⟨_,hfetch,Or.inl ⟨b,t,next,v,pc,hnext,hne,fun f hf => ?_⟩⟩
      rw [hone f hf,show apply _ _ _ = _ from hdone f hf.nextPC]
      rfl
    · refine Or.inl ⟨which,badVAddr,t,?_,fun f hf => ?_⟩
      · rcases hreason with ⟨he,rfl⟩ | ⟨size,writing,haccess,ht⟩
        · have hwhich : (Effect.raise which).Ok := he ▸ hok
          exact .other hfetch hwhich
        · obtain ⟨hop,rfl⟩ := (operands m (.Decode raw)).effect_accesses haccess
          exact .access hfetch hop (access_touch ht)
      · rw [hone f hf,show apply _ _ _ = _ from hraise f]
        exact RaiseException_bind _ _ _ _
    · refine Or.inr ⟨_,hfetch,Or.inr ⟨hdivide,fun f hf => ?_⟩⟩
      rw [hone f hf,hdivide]
      rfl

theorem Fetches.registers_lt {m : Machine} {instr : Instruction} (h : m.Fetches instr) :
    instr.rs < 32 ∧ instr.rt < 32 ∧ instr.rd < 32 := by
  obtain ⟨raw,_,_,rfl⟩ := h
  exact Instruction.decode_registers raw

end Machine
end Hardware
end NachOS
