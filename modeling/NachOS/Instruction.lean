import NachOS.Machine

/-! Decoding of MIPS instructions (machine/mipssim.h and `Instruction::Decode` of
machine/mipssim.cc). -/
namespace NachOS

/-- The operations, with the two marks that ask for further decoding. -/
inductive OpCode
  | OP_ADD | OP_ADDI | OP_ADDIU | OP_ADDU | OP_AND | OP_ANDI | OP_BEQ | OP_BGEZ | OP_BGEZAL
  | OP_BGTZ | OP_BLEZ | OP_BLTZ | OP_BLTZAL | OP_BNE | OP_DIV | OP_DIVU | OP_J | OP_JAL
  | OP_JALR | OP_JR | OP_LB | OP_LBU | OP_LH | OP_LHU | OP_LUI | OP_LW | OP_LWL | OP_LWR
  | OP_MFHI | OP_MFLO | OP_MTHI | OP_MTLO | OP_MULT | OP_MULTU | OP_NOR | OP_OR | OP_ORI
  | OP_RFE | OP_SB | OP_SH | OP_SLL | OP_SLLV | OP_SLT | OP_SLTI | OP_SLTIU | OP_SLTU
  | OP_SRA | OP_SRAV | OP_SRL | OP_SRLV | OP_SUB | OP_SUBU | OP_SW | OP_SWL | OP_SWR | OP_XOR
  | OP_XORI | OP_SYSCALL | OP_UNIMP | OP_RES
  | SPECIAL | BCOND
  deriving DecidableEq, Repr

inductive Format
  | IFMT | JFMT | RFMT
  deriving DecidableEq, Repr

open OpCode Format

/-- Indexed by bits 31 to 26 of the instruction. -/
def opTable : List (OpCode × Format) :=
  [(SPECIAL,RFMT),(BCOND,IFMT),(OP_J,JFMT),(OP_JAL,JFMT),
    (OP_BEQ,IFMT),(OP_BNE,IFMT),(OP_BLEZ,IFMT),(OP_BGTZ,IFMT),
    (OP_ADDI,IFMT),(OP_ADDIU,IFMT),(OP_SLTI,IFMT),(OP_SLTIU,IFMT),
    (OP_ANDI,IFMT),(OP_ORI,IFMT),(OP_XORI,IFMT),(OP_LUI,IFMT),
    (OP_UNIMP,IFMT),(OP_UNIMP,IFMT),(OP_UNIMP,IFMT),(OP_UNIMP,IFMT),
    (OP_RES,IFMT),(OP_RES,IFMT),(OP_RES,IFMT),(OP_RES,IFMT),
    (OP_RES,IFMT),(OP_RES,IFMT),(OP_RES,IFMT),(OP_RES,IFMT),
    (OP_RES,IFMT),(OP_RES,IFMT),(OP_RES,IFMT),(OP_RES,IFMT),
    (OP_LB,IFMT),(OP_LH,IFMT),(OP_LWL,IFMT),(OP_LW,IFMT),
    (OP_LBU,IFMT),(OP_LHU,IFMT),(OP_LWR,IFMT),(OP_RES,IFMT),
    (OP_SB,IFMT),(OP_SH,IFMT),(OP_SWL,IFMT),(OP_SW,IFMT),
    (OP_RES,IFMT),(OP_RES,IFMT),(OP_SWR,IFMT),(OP_RES,IFMT),
    (OP_UNIMP,IFMT),(OP_UNIMP,IFMT),(OP_UNIMP,IFMT),(OP_UNIMP,IFMT),
    (OP_RES,IFMT),(OP_RES,IFMT),(OP_RES,IFMT),(OP_RES,IFMT),
    (OP_UNIMP,IFMT),(OP_UNIMP,IFMT),(OP_UNIMP,IFMT),(OP_UNIMP,IFMT),
    (OP_RES,IFMT),(OP_RES,IFMT),(OP_RES,IFMT),(OP_RES,IFMT)]

/-- Indexed by the "funct" field of a `SPECIAL` instruction. -/
def specialTable : List OpCode :=
  [OP_SLL,OP_RES,OP_SRL,OP_SRA,OP_SLLV,OP_RES,OP_SRLV,OP_SRAV,
    OP_JR,OP_JALR,OP_RES,OP_RES,OP_SYSCALL,OP_UNIMP,OP_RES,OP_RES,
    OP_MFHI,OP_MTHI,OP_MFLO,OP_MTLO,OP_RES,OP_RES,OP_RES,OP_RES,
    OP_MULT,OP_MULTU,OP_DIV,OP_DIVU,OP_RES,OP_RES,OP_RES,OP_RES,
    OP_ADD,OP_ADDU,OP_SUB,OP_SUBU,OP_AND,OP_OR,OP_XOR,OP_NOR,
    OP_RES,OP_RES,OP_SLT,OP_SLTU,OP_RES,OP_RES,OP_RES,OP_RES,
    OP_RES,OP_RES,OP_RES,OP_RES,OP_RES,OP_RES,OP_RES,OP_RES,
    OP_RES,OP_RES,OP_RES,OP_RES,OP_RES,OP_RES,OP_RES,OP_RES]

structure Instruction where
  value : BitVec 32
  opCode : OpCode
  rs : ℕ
  rt : ℕ
  rd : ℕ
  extra : BitVec 32

/-- A field of the instruction, from bit `i` on. -/
def bits (value : BitVec 32) (i : ℕ) (mask : BitVec 32) : ℕ := ((value >>> i) &&& mask).toNat

/-- The immediate, the target or the shift amount. -/
def extraOf (format : Format) (value : BitVec 32) : BitVec 32 :=
  match format with
  | .IFMT =>
    let extra := value &&& 0xffff#32
    if extra &&& 0x8000#32 ≠ 0#32 then extra ||| 0xffff0000#32 else extra
  | .RFMT => (value >>> 6) &&& 0x1f#32
  | .JFMT => value &&& 0x3ffffff#32

def opCodeOf (opCode : OpCode) (value : BitVec 32) : OpCode :=
  match opCode with
  | SPECIAL => specialTable.getD (bits value 0 0x3f#32) OP_RES
  | BCOND =>
    let i := value &&& 0x1f0000#32
    if i = 0#32 then OP_BLTZ
    else if i = 0x10000#32 then OP_BGEZ
    else if i = 0x100000#32 then OP_BLTZAL
    else if i = 0x110000#32 then OP_BGEZAL
    else OP_UNIMP
  | opCode => opCode

namespace Instruction

def Decode (value : BitVec 32) : Instruction :=
  let opPtr := opTable.getD (bits value 26 0x3f#32) (OP_RES,IFMT)
  { value := value
    opCode := opCodeOf opPtr.1 value
    rs := bits value 21 0x1f#32
    rt := bits value 16 0x1f#32
    rd := bits value 11 0x1f#32
    extra := extraOf opPtr.2 value }

end Instruction

/-- The operations that have a case of their own in `OneInstruction`. -/
def OpCode.HasCase (op : OpCode) : Prop := op ≠ OP_RFE ∧ op ≠ SPECIAL ∧ op ≠ BCOND

instance (op : OpCode) : Decidable op.HasCase := inferInstanceAs (Decidable (_ ∧ _ ∧ _))

/-- The accesses to memory that an instruction makes: size and direction. -/
def OpCode.Accesses : OpCode → ℕ → Bool → Prop
  | OP_LB,n,writing | OP_LBU,n,writing => n = 1 ∧ writing = false
  | OP_LH,n,writing | OP_LHU,n,writing => n = 2 ∧ writing = false
  | OP_LW,n,writing | OP_LWL,n,writing | OP_LWR,n,writing => n = 4 ∧ writing = false
  | OP_SB,n,writing => n = 1 ∧ writing = true
  | OP_SH,n,writing => n = 2 ∧ writing = true
  | OP_SW,n,writing => n = 4 ∧ writing = true
  -- the word is read and written back
  | OP_SWL,n,_ | OP_SWR,n,_ => n = 4
  | _,_,_ => False

/-- The address that an instruction accesses: `rs` plus the offset, or the word it lies in. -/
def Instruction.accessed (instr : Instruction) (rs : BitVec 32) : BitVec 32 :=
  match instr.opCode with
  | OP_LWL | OP_LWR | OP_SWL | OP_SWR =>
    rs + instr.extra - (rs + instr.extra &&& 0x3#32)
  | _ => rs + instr.extra

theorem bits_le (value : BitVec 32) (i : ℕ) (mask : BitVec 32) : bits value i mask ≤ mask.toNat := by
  rw [bits,BitVec.toNat_and]
  exact Nat.and_le_right

theorem length_opTable : opTable.length = 64 := rfl

theorem length_specialTable : specialTable.length = 64 := rfl

/-- A table whose entries all satisfy `P`, indexed by six bits of a word. -/
theorem getD_of_forall {α : Type} {table : List α} {P : α → Prop} (hlen : table.length = 64)
    (h : ∀ a ∈ table, P a) (value : BitVec 32) (i : ℕ) (default : α) :
    P (table.getD (bits value i 0x3f#32) default) := by
  have hlt : bits value i 0x3f#32 < table.length := by
    have hle := bits_le value i 0x3f#32
    rw [hlen]
    exact Nat.lt_of_le_of_lt hle (by decide)
  rw [List.getD_eq_getElem _ _ hlt]
  exact h _ (List.getElem_mem hlt)

theorem specialTable_hasCase : ∀ op ∈ specialTable, op.HasCase := by decide

theorem opTable_hasCase : ∀ e ∈ opTable, e.1.HasCase ∨ e.1 = SPECIAL ∨ e.1 = BCOND := by decide

theorem opCodeOf_hasCase {op : OpCode} (h : op.HasCase ∨ op = SPECIAL ∨ op = BCOND)
    (value : BitVec 32) : (opCodeOf op value).HasCase := by
  rcases h with h | rfl | rfl
  · cases op <;> first | exact h | exact absurd h (by decide)
  · exact getD_of_forall length_specialTable specialTable_hasCase value 0 OP_RES
  · simp only [opCodeOf]
    split_ifs <;> decide

namespace Instruction

/-- Every word decodes to an operation that has a case. -/
theorem decode_hasCase (value : BitVec 32) : (Decode value).opCode.HasCase :=
  opCodeOf_hasCase (getD_of_forall length_opTable opTable_hasCase value 26 (OP_RES,IFMT)) value

/-- Every word names general registers. -/
theorem decode_registers (value : BitVec 32) :
    (Decode value).rs < 32 ∧ (Decode value).rt < 32 ∧ (Decode value).rd < 32 :=
  ⟨Nat.lt_succ_of_le (bits_le value 21 0x1f#32),Nat.lt_succ_of_le (bits_le value 16 0x1f#32),
    Nat.lt_succ_of_le (bits_le value 11 0x1f#32)⟩

end Instruction
end NachOS
