import NachOS.Instruction

/-! The MIPS processor (machine/mipssim.cc with `SIM_FIX`, and `Machine::RaiseException`):
one instruction is fetched, decoded and executed, and a load takes effect one instruction
later.  Arithmetic wraps around, as on the host that the simulator is built for. -/
namespace NachOS

open StateMachine hiding Machine

abbrev NumGPRegs : ℕ := 32
abbrev HiReg : ℕ := 32
abbrev LoReg : ℕ := 33
abbrev LoadReg : ℕ := 37
abbrev LoadValueReg : ℕ := 38
abbrev BadVAddrReg : ℕ := 39
abbrev R31 : ℕ := 31

abbrev SIGN_BIT : BitVec 32 := 0x80000000#32

def IndexToAddr (x : BitVec 32) : BitVec 32 := x <<< 2

namespace Hardware

/-- Why an instruction does not complete: `ExceptionHandler` is entered with this machine,
the host's own division stops the simulator, or the simulator fails. -/
inductive Trap
  | exception (which : ExceptionType) (m : Machine)
  | divide
  | fault (f : Fault)

namespace Machine

/-- `registers[i]`, an array of `NumTotalRegs` words. -/
def reg (m : Machine) (i : ℕ) : Except Trap (BitVec 32) :=
  if i < NumTotalRegs then .ok (m.registers i) else .error (.fault .undefined)

def setReg (m : Machine) (i : ℕ) (value : BitVec 32) : Except Trap Machine :=
  if i < NumTotalRegs then .ok { m with registers := Function.update m.registers i value }
  else .error (.fault .undefined)

def DelayedLoad (m : Machine) (nextReg : ℕ) (nextValue : BitVec 32) : Except Trap Machine := do
  let m ← m.setReg (← m.reg LoadReg).toNat (← m.reg LoadValueReg)
  let m ← m.setReg LoadReg (BitVec.ofNat 32 nextReg)
  let m ← m.setReg LoadValueReg nextValue
  m.setReg 0 0#32

/-- Up to the call of `ExceptionHandler`. -/
def RaiseException {α : Type} (m : Machine) (which : ExceptionType) (badVAddr : BitVec 32) :
    Except Trap α := do
  let m ← m.setReg BadVAddrReg badVAddr
  let m ← m.DelayedLoad 0 0#32
  .error (.exception which m)

/-- `ReadMem`, which raises the exception of a failed translation. -/
def readMem (m : Machine) (addr : BitVec 32) (size : ℕ) : Except Trap (BitVec 32 × Machine) :=
  match m.ReadMem addr size with
  | .error f => .error (.fault f)
  | .ok (.error e) => m.RaiseException e addr
  | .ok (.ok (value,m)) => .ok (BitVec.ofInt 32 value,m)

def writeMem (m : Machine) (addr : BitVec 32) (size : ℕ) (value : BitVec 32) :
    Except Trap Machine :=
  match m.WriteMem addr size value.toInt with
  | .error f => .error (.fault f)
  | .ok (.error e) => m.RaiseException e addr
  | .ok (.ok m) => .ok m

/-- The machine and the local variables at the end of the `switch`. -/
structure Next where
  machine : Machine
  nextLoadReg : ℕ
  nextLoadValue : BitVec 32
  pcAfter : BitVec 32

/-! `Mult`. -/

/-- The loop of `Mult`, with `n` passes to go. -/
def multLoop (a bLo bHi lo hi : BitVec 32) : ℕ → BitVec 32 × BitVec 32
  | 0 => (hi,lo)
  | n + 1 =>
    let odd := a &&& 1#32 ≠ 0#32
    let lo' := if odd then lo + bLo else lo
    let hi' := if odd then (if lo' < bLo then hi + 1#32 else hi) + bHi else hi
    if odd ∧ a &&& 0xfffffffe#32 = 0#32 then (hi',lo')
    else
      let bHi' := if bLo &&& SIGN_BIT ≠ 0#32 then bHi <<< 1 ||| 1#32 else bHi <<< 1
      multLoop (a.sshiftRight 1) (bLo <<< 1) bHi' lo' hi' n

/-- The words for `*hiPtr` and `*loPtr`. -/
def Mult (a b : BitVec 32) (signedArith : Bool) : BitVec 32 × BitVec 32 :=
  if a = 0#32 ∨ b = 0#32 then (0#32,0#32)
  else
    let negative := signedArith && (a.slt 0#32 != b.slt 0#32)
    let a := if signedArith && a.slt 0#32 then -a else a
    let b := if signedArith && b.slt 0#32 then -b else b
    let (hi,lo) := multLoop a b 0#32 0#32 0#32 32
    if negative then
      let lo := ~~~lo + 1#32
      (if lo = 0#32 then ~~~hi + 1#32 else ~~~hi,lo)
    else (hi,lo)

/-! The cases of the `switch` that differ in one operation only. -/

section

variable (m : Machine) (instr : Instruction) (pcAfter : BitVec 32)

/-- `registers[instr->rd] = f(registers[instr->rs], registers[instr->rt])` -/
def registerOp (f : BitVec 32 → BitVec 32 → BitVec 32) : Except Trap Next := do
  let value := f (← m.reg instr.rs) (← m.reg instr.rt)
  return ⟨← m.setReg instr.rd value,0,0#32,pcAfter⟩

/-- `registers[instr->rt] = f(registers[instr->rs], instr->extra)` -/
def immediateOp (f : BitVec 32 → BitVec 32 → BitVec 32) : Except Trap Next := do
  let value := f (← m.reg instr.rs) instr.extra
  return ⟨← m.setReg instr.rt value,0,0#32,pcAfter⟩

/-- `registers[instr->rd] = f(registers[instr->rt], instr->extra)` -/
def shiftOp (f : BitVec 32 → ℕ → BitVec 32) : Except Trap Next := do
  let value := f (← m.reg instr.rt) instr.extra.toNat
  return ⟨← m.setReg instr.rd value,0,0#32,pcAfter⟩

/-- A sum or difference that is tested for overflow before it is stored. -/
def trappingOp (dest : ℕ) (a b : BitVec 32) (f : BitVec 32 → BitVec 32 → BitVec 32)
    (overflow : BitVec 32 → BitVec 32 → BitVec 32 → Bool) : Except Trap Next :=
  if overflow a b (f a b) then m.RaiseException .overflowException 0#32
  else do return ⟨← m.setReg dest (f a b),0,0#32,pcAfter⟩

/-- `registers[HiReg]` and `registers[LoReg]` from the two operands. -/
def hiLoOp (f : BitVec 32 → BitVec 32 → BitVec 32 × BitVec 32) : Except Trap Next := do
  let (hi,lo) := f (← m.reg instr.rs) (← m.reg instr.rt)
  let m ← m.setReg LoReg lo
  return ⟨← m.setReg HiReg hi,0,0#32,pcAfter⟩

/-- `if (c(registers[instr->rs])) pcAfter = registers[NextPCReg] + IndexToAddr(instr->extra)` -/
def branchOp (c : BitVec 32 → Bool) : Except Trap Next := do
  if c (← m.reg instr.rs) then
    return ⟨m,0,0#32,(← m.reg NextPCReg) + IndexToAddr instr.extra⟩
  else return ⟨m,0,0#32,pcAfter⟩

/-- `registers[i] = registers[NextPCReg] + 4` -/
def link (i : ℕ) : Except Trap Machine := do
  m.setReg i ((← m.reg NextPCReg) + 4#32)

def loadByte (signed : Bool) : Except Trap Next := do
  let tmp := (← m.reg instr.rs) + instr.extra
  let (value,m) ← m.readMem tmp 1
  let value := if value &&& 0x80#32 ≠ 0#32 ∧ signed = true then value ||| 0xffffff00#32
    else value &&& 0xff#32
  return ⟨m,instr.rt,value,pcAfter⟩

def loadHalf (signed : Bool) : Except Trap Next := do
  let tmp := (← m.reg instr.rs) + instr.extra
  if tmp &&& 0x1#32 ≠ 0#32 then m.RaiseException .addressErrorException tmp
  else
    let (value,m) ← m.readMem tmp 2
    let value := if value &&& 0x8000#32 ≠ 0#32 ∧ signed = true then value ||| 0xffff0000#32
      else value &&& 0xffff#32
    return ⟨m,instr.rt,value,pcAfter⟩

/-- `LWL` and `LWR`: the bytes of the word at the address are merged into the value that
register `rt` has, or is about to get. -/
def loadPart (merge : ℕ → BitVec 32 → BitVec 32 → BitVec 32) : Except Trap Next := do
  let tmp := (← m.reg instr.rs) + instr.extra
  let byte := tmp &&& 0x3#32
  let (value,m) ← m.readMem (tmp - byte) 4
  let nextLoadValue ←
    if (← m.reg LoadReg).toNat = instr.rt then m.reg LoadValueReg else m.reg instr.rt
  return ⟨m,instr.rt,merge (3 - byte.toNat) nextLoadValue value,pcAfter⟩

def storeOp (size : ℕ) : Except Trap Next := do
  let addr := (← m.reg instr.rs) + instr.extra
  let m ← m.writeMem addr size (← m.reg instr.rt)
  return ⟨m,0,0#32,pcAfter⟩

/-- `SWL` and `SWR`: the word at the address is read and written back with some bytes of
register `rt` in it. -/
def storePart (merge : ℕ → BitVec 32 → BitVec 32 → BitVec 32) : Except Trap Next := do
  let tmp := (← m.reg instr.rs) + instr.extra
  let byte := tmp &&& 0x3#32
  let (value,m) ← m.readMem (tmp - byte) 4
  let m ← m.writeMem (tmp - byte) 4 (merge (3 - byte.toNat) value (← m.reg instr.rt))
  return ⟨m,0,0#32,pcAfter⟩

end

def signBit (x : BitVec 32) : Bool := x &&& SIGN_BIT ≠ 0#32

def addOverflow (a b sum : BitVec 32) : Bool := !signBit (a ^^^ b) && signBit (a ^^^ sum)

def addiOverflow (a extra sum : BitVec 32) : Bool :=
  !signBit (a ^^^ extra) && signBit (extra ^^^ sum)

def subOverflow (a b diff : BitVec 32) : Bool := signBit (a ^^^ b) && signBit (a ^^^ diff)

/-- The inner `switch` of `OP_LWL`; the last two arguments are `nextLoadValue` and `value`. -/
def mergeLWL : ℕ → BitVec 32 → BitVec 32 → BitVec 32
  | 0, _, value => value
  | 1, old, value => old &&& 0xff#32 ||| value <<< 8
  | 2, old, value => old &&& 0xffff#32 ||| value <<< 16
  | 3, old, value => old &&& 0xffffff#32 ||| value <<< 24
  | _, old, _ => old

def mergeLWR : ℕ → BitVec 32 → BitVec 32 → BitVec 32
  | 0, old, value => old &&& 0xffffff00#32 ||| value.sshiftRight 24 &&& 0xff#32
  | 1, old, value => old &&& 0xffff0000#32 ||| value.sshiftRight 16 &&& 0xffff#32
  | 2, old, value => old &&& 0xff000000#32 ||| value.sshiftRight 8 &&& 0xffffff#32
  | 3, _, value => value
  | _, old, _ => old

/-- The inner `switch` of `OP_SWL`; the last argument is `registers[instr->rt]`. -/
def mergeSWL : ℕ → BitVec 32 → BitVec 32 → BitVec 32
  | 0, _, rt => rt
  | 1, value, rt => value &&& 0xff000000#32 ||| rt.sshiftRight 8 &&& 0xffffff#32
  | 2, value, rt => value &&& 0xffff0000#32 ||| rt.sshiftRight 16 &&& 0xffff#32
  | 3, value, rt => value &&& 0xffffff00#32 ||| rt.sshiftRight 24 &&& 0xff#32
  | _, value, _ => value

def mergeSWR : ℕ → BitVec 32 → BitVec 32 → BitVec 32
  | 0, value, rt => value &&& 0xffffff#32 ||| rt <<< 24
  | 1, value, rt => value &&& 0xffff#32 ||| rt <<< 16
  | 2, value, rt => value &&& 0xff#32 ||| rt <<< 8
  | 3, _, rt => rt
  | _, value, _ => value

/-- `1` if the comparison holds. -/
def flag (b : Bool) : BitVec 32 := if b then 1#32 else 0#32

def divideUnsigned (rs rt : BitVec 32) : BitVec 32 × BitVec 32 :=
  if rt = 0#32 then (0#32,0#32) else (rs % rt,rs / rt)

/-- The signed quotient has no representation: the host's division instruction traps. -/
def DivideTraps (rs rt : BitVec 32) : Prop := rs = BitVec.intMin 32 ∧ rt = -1#32

instance (rs rt : BitVec 32) : Decidable (DivideTraps rs rt) :=
  inferInstanceAs (Decidable (_ ∧ _))

def divideSigned (rs rt : BitVec 32) : BitVec 32 × BitVec 32 :=
  if rt = 0#32 then (0#32,0#32) else (rs.srem rt,rs.sdiv rt)

open OpCode

/-- The `switch` of `OneInstruction`. -/
def execute (m : Machine) (instr : Instruction) : Except Trap Next := do
  let pcAfter := (← m.reg NextPCReg) + 4#32
  match instr.opCode with
  | OP_ADD =>
    m.trappingOp pcAfter instr.rd (← m.reg instr.rs) (← m.reg instr.rt) (· + ·) addOverflow
  | OP_ADDI => m.trappingOp pcAfter instr.rt (← m.reg instr.rs) instr.extra (· + ·) addiOverflow
  | OP_ADDIU => m.immediateOp instr pcAfter (· + ·)
  | OP_ADDU => m.registerOp instr pcAfter (· + ·)
  | OP_AND => m.registerOp instr pcAfter (· &&& ·)
  | OP_ANDI => m.immediateOp instr pcAfter fun a extra => a &&& (extra &&& 0xffff#32)
  | OP_BEQ =>
    let rt ← m.reg instr.rt
    m.branchOp instr pcAfter fun a => a = rt
  | OP_BGEZAL =>
    let m ← m.link R31
    m.branchOp instr pcAfter fun a => !signBit a
  | OP_BGEZ => m.branchOp instr pcAfter fun a => !signBit a
  | OP_BGTZ => m.branchOp instr pcAfter fun a => BitVec.slt 0#32 a
  | OP_BLEZ => m.branchOp instr pcAfter fun a => BitVec.sle a 0#32
  | OP_BLTZAL =>
    let m ← m.link R31
    m.branchOp instr pcAfter signBit
  | OP_BLTZ => m.branchOp instr pcAfter signBit
  | OP_BNE =>
    let rt ← m.reg instr.rt
    m.branchOp instr pcAfter fun a => a ≠ rt
  | OP_DIV =>
    if DivideTraps (← m.reg instr.rs) (← m.reg instr.rt) then .error .divide
    else m.hiLoOp instr pcAfter divideSigned
  | OP_DIVU => m.hiLoOp instr pcAfter divideUnsigned
  | OP_JAL => return ⟨← m.link R31,0,0#32,pcAfter &&& 0xf0000000#32 ||| IndexToAddr instr.extra⟩
  | OP_J => return ⟨m,0,0#32,pcAfter &&& 0xf0000000#32 ||| IndexToAddr instr.extra⟩
  | OP_JALR =>
    let m ← m.link instr.rd
    return ⟨m,0,0#32,← m.reg instr.rs⟩
  | OP_JR => return ⟨m,0,0#32,← m.reg instr.rs⟩
  | OP_LB => m.loadByte instr pcAfter true
  | OP_LBU => m.loadByte instr pcAfter false
  | OP_LH => m.loadHalf instr pcAfter true
  | OP_LHU => m.loadHalf instr pcAfter false
  | OP_LUI => return ⟨← m.setReg instr.rt (instr.extra <<< 16),0,0#32,pcAfter⟩
  | OP_LW =>
    let tmp := (← m.reg instr.rs) + instr.extra
    if tmp &&& 0x3#32 ≠ 0#32 then m.RaiseException .addressErrorException tmp
    else
      let (value,m) ← m.readMem tmp 4
      return ⟨m,instr.rt,value,pcAfter⟩
  | OP_LWL => m.loadPart instr pcAfter mergeLWL
  | OP_LWR => m.loadPart instr pcAfter mergeLWR
  | OP_MFHI => return ⟨← m.setReg instr.rd (← m.reg HiReg),0,0#32,pcAfter⟩
  | OP_MFLO => return ⟨← m.setReg instr.rd (← m.reg LoReg),0,0#32,pcAfter⟩
  | OP_MTHI => return ⟨← m.setReg HiReg (← m.reg instr.rs),0,0#32,pcAfter⟩
  | OP_MTLO => return ⟨← m.setReg LoReg (← m.reg instr.rs),0,0#32,pcAfter⟩
  | OP_MULT => m.hiLoOp instr pcAfter fun a b => Mult a b true
  | OP_MULTU => m.hiLoOp instr pcAfter fun a b => Mult a b false
  | OP_NOR => m.registerOp instr pcAfter fun a b => ~~~(a ||| b)
  | OP_OR => m.registerOp instr pcAfter (· ||| ·)
  | OP_ORI => m.immediateOp instr pcAfter fun a extra => a ||| (extra &&& 0xffff#32)
  | OP_SB => m.storeOp instr pcAfter 1
  | OP_SH => m.storeOp instr pcAfter 2
  | OP_SLL => m.shiftOp instr pcAfter (· <<< ·)
  | OP_SLLV => m.registerOp instr pcAfter fun a b => b <<< (a &&& 0x1f#32).toNat
  | OP_SLT => m.registerOp instr pcAfter fun a b => flag (a.slt b)
  | OP_SLTI => m.immediateOp instr pcAfter fun a extra => flag (a.slt extra)
  | OP_SLTIU => m.immediateOp instr pcAfter fun a extra => flag (a.ult extra)
  | OP_SLTU => m.registerOp instr pcAfter fun a b => flag (a.ult b)
  | OP_SRA => m.shiftOp instr pcAfter BitVec.sshiftRight
  | OP_SRAV => m.registerOp instr pcAfter fun a b => b.sshiftRight (a &&& 0x1f#32).toNat
  -- `tmp` is an `int`, so the two logical shifts are arithmetic as well
  | OP_SRL => m.shiftOp instr pcAfter BitVec.sshiftRight
  | OP_SRLV => m.registerOp instr pcAfter fun a b => b.sshiftRight (a &&& 0x1f#32).toNat
  | OP_SUB =>
    m.trappingOp pcAfter instr.rd (← m.reg instr.rs) (← m.reg instr.rt) (· - ·) subOverflow
  | OP_SUBU => m.registerOp instr pcAfter (· - ·)
  | OP_SW => m.storeOp instr pcAfter 4
  | OP_SWL => m.storePart instr pcAfter mergeSWL
  | OP_SWR => m.storePart instr pcAfter mergeSWR
  | OP_SYSCALL => m.RaiseException .syscallException 0#32
  | OP_XOR => m.registerOp instr pcAfter (· ^^^ ·)
  | OP_XORI => m.immediateOp instr pcAfter fun a extra => a ^^^ (extra &&& 0xffff#32)
  | OP_RES | OP_UNIMP => m.RaiseException .illegalInstrException 0#32
  | OP_RFE | SPECIAL | BCOND => .error (.fault .assertion)

/-- The delayed load and the program counters, after the `switch`. -/
def finish (next : Next) : Except Trap Machine := do
  let m ← next.machine.DelayedLoad next.nextLoadReg next.nextLoadValue
  let m ← m.setReg PrevPCReg (← m.reg PCReg)
  let m ← m.setReg PCReg (← m.reg NextPCReg)
  m.setReg NextPCReg next.pcAfter

def OneInstruction (m : Machine) : Except Trap Machine := do
  let (raw,m) ← m.readMem (← m.reg PCReg) 4
  let next ← m.execute (.Decode raw)
  finish next

end Machine
end Hardware
end NachOS
