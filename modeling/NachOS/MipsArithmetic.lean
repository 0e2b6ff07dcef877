import NachOS.DoubleWord
import NachOS.MipsInterrupts

/-! The arithmetic of the processor against the integers: products of double length, shifts,
sums that may overflow, and quotients. -/
namespace NachOS

open OpCode Format

/-! The fields of the instruction word. -/

namespace Instruction

section

variable (instr : Instruction)

/-- Bits 10 to 6. -/
def shamt : ℕ := instr.value.toNat / 2 ^ 6 % 2 ^ 5

/-- Bits 15 to 0. -/
def immediate : BitVec 16 := instr.value.extractLsb' 0 16

end

/-- The operations that `BCOND` stands for. -/
def branches : List OpCode := [OP_BLTZ,OP_BGEZ,OP_BLTZAL,OP_BGEZAL,OP_UNIMP]

theorem opCodeOf_cases (op : OpCode) (value : BitVec 32) :
    op = SPECIAL ∧ opCodeOf op value ∈ specialTable ∨
    op = BCOND ∧ opCodeOf op value ∈ branches ∨ opCodeOf op value = op := by
  cases op with
  | SPECIAL => exact Or.inl ⟨rfl,getD_of_forall length_specialTable (fun _ h => h) value 0 OP_RES⟩
  | BCOND =>
    refine Or.inr (Or.inl ⟨rfl,?_⟩)
    simp only [opCodeOf]
    split_ifs <;> decide
  | _ => exact Or.inr (Or.inr rfl)

/-- The entry of the table that an instruction is decoded with. -/
theorem decode_entry (value : BitVec 32) : ∃ e ∈ opTable,
    (Decode value).opCode = opCodeOf e.1 value ∧ (Decode value).extra = extraOf e.2 value :=
  ⟨_,getD_of_forall length_opTable (fun _ h => h) value 26 (OP_RES,IFMT),rfl,rfl⟩

theorem shifts_format : (∀ e ∈ opTable, e.1 = SPECIAL → e.2 = RFMT) ∧
    (∀ op ∈ branches, op ∉ [OP_SLL,OP_SRL,OP_SRA]) ∧
    ∀ e ∈ opTable, e.1 ∈ [OP_SLL,OP_SRL,OP_SRA] → e.2 = RFMT := by
  decide

theorem immediates_format : (∀ op ∈ specialTable, op ∉ [OP_ADDI,OP_ADDIU]) ∧
    (∀ op ∈ branches, op ∉ [OP_ADDI,OP_ADDIU]) ∧
    ∀ e ∈ opTable, e.1 ∈ [OP_ADDI,OP_ADDIU] → e.2 = IFMT := by
  decide

/-- The shift amount is taken from its field. -/
theorem decode_shamt (value : BitVec 32) (h : (Decode value).opCode ∈ [OP_SLL,OP_SRL,OP_SRA]) :
    (Decode value).extra.toNat = (Decode value).shamt := by
  obtain ⟨e,he,hop,hextra⟩ := decode_entry value
  obtain ⟨hspecial,hbranches,hentry⟩ := shifts_format
  have hformat : e.2 = RFMT := by
    rw [hop] at h
    rcases opCodeOf_cases e.1 value with ⟨hs,_⟩ | ⟨_,hb⟩ | hself
    · exact hspecial e he hs
    · exact absurd h (hbranches _ hb)
    · exact hentry e he (hself ▸ h)
  rw [hextra,hformat]
  simp only [extraOf,BitVec.toNat_and,BitVec.toNat_ushiftRight,Nat.shiftRight_eq_div_pow]
  exact Nat.and_two_pow_sub_one_eq_mod _ 5

theorem extraOf_immediate (value : BitVec 32) :
    extraOf IFMT value = (value.extractLsb' 0 16).signExtend 32 := by
  have hmask : value &&& 0xffff#32 &&& 0x8000#32 =
      if value.getLsbD 15 then 0x8000#32 else 0#32 := by
    rw [BitVec.and_assoc]
    exact BitVec.and_twoPow value 15
  have hmsb : (value.extractLsb' 0 16).msb = value.getLsbD 15 := by
    rw [BitVec.msb_eq_getLsbD_last,BitVec.getLsbD_extractLsb']
    rfl
  simp only [extraOf,hmask]
  ext i hi
  rw [BitVec.getElem_signExtend,hmsb]
  cases value.getLsbD 15 <;> interval_cases i <;> simp

/-- The immediate is extended by its sign. -/
theorem decode_immediate (value : BitVec 32) (h : (Decode value).opCode ∈ [OP_ADDI,OP_ADDIU]) :
    (Decode value).extra = (Decode value).immediate.signExtend 32 := by
  obtain ⟨e,he,hop,hextra⟩ := decode_entry value
  obtain ⟨hspecial,hbranches,hentry⟩ := immediates_format
  have hformat : e.2 = IFMT := by
    rw [hop] at h
    rcases opCodeOf_cases e.1 value with ⟨_,hs⟩ | ⟨_,hb⟩ | hself
    · exact absurd h (hspecial _ hs)
    · exact absurd h (hbranches _ hb)
    · exact hentry e he (hself ▸ h)
  rw [hextra,hformat,extraOf_immediate]
  rfl

end Instruction

namespace Hardware

open StateMachine hiding Machine
open Machine

/-! Multiplication. -/

namespace Machine

/-- The number in two words. -/
def doubleWord (p : BitVec 32 × BitVec 32) : BitVec 64 := p.1 ++ p.2

theorem and_signBit_ne_zero (x : BitVec 32) : x &&& SIGN_BIT ≠ 0#32 ↔ x.msb = true := by
  have hmask : x &&& SIGN_BIT = if x.getLsbD 31 then SIGN_BIT else 0#32 := BitVec.and_twoPow x 31
  rw [hmask,BitVec.msb_eq_getLsbD_last]
  cases x.getLsbD 31 <;> decide

theorem signBit_eq_msb (x : BitVec 32) : signBit x = x.msb := by
  simp only [signBit,and_signBit_ne_zero,Bool.decide_eq_true]

/-- The signed shift lets the multiplier keep its sign bits, but they are beyond the bits that
are looked at. -/
theorem sshiftRight_one_mod (a : BitVec 32) {n : ℕ} (hn : n < 32) :
    (a.sshiftRight 1).toNat % 2 ^ n = a.toNat / 2 % 2 ^ n := by
  apply Nat.eq_of_testBit_eq
  intro i
  rw [Nat.testBit_mod_two_pow,Nat.testBit_mod_two_pow,← Nat.shiftRight_one,Nat.testBit_shiftRight,
    BitVec.testBit_toNat,BitVec.testBit_toNat,BitVec.getLsbD_sshiftRight]
  by_cases hi : i < n
  · have hin : 1 + i < 32 := by omega
    have hnot : ¬ 32 ≤ i := by omega
    simp [hi,hin,hnot]
  · simp [hi]

/-- The multiplier's last bit. -/
theorem eq_one_of_exit {a : BitVec 32} (hodd : a.toNat % 2 = 1)
    (hrest : a &&& 0xfffffffe#32 = 0#32) : a.toNat = 1 := by
  have hsplit : a = a &&& 0xfffffffe#32 ||| a &&& 1#32 := by
    rw [← BitVec.and_or_distrib_left]
    exact (BitVec.and_allOnes).symm
  rw [hrest,BitVec.zero_or] at hsplit
  rw [hsplit,BitVec.toNat_and]
  exact (Nat.and_one_is_mod a.toNat).trans hodd

/-- Each pass adds the multiplicand, doubled as often as there were passes before, for a bit of
the multiplier. -/
theorem multLoop_eq (a bLo bHi lo hi : BitVec 32) {n : ℕ} (hn : n ≤ 32) :
    doubleWord (multLoop a bLo bHi lo hi n) =
      doubleWord (hi,lo) + BitVec.ofNat 64 (a.toNat % 2 ^ n) * doubleWord (bHi,bLo) := by
  induction n generalizing a bLo bHi lo hi with
  | zero => simp [multLoop,Nat.mod_one]
  | succ n ih =>
    have hodd : a &&& 1#32 ≠ 0#32 ↔ a.toNat % 2 = 1 := by
      rw [and_one_ne_zero]
      omega
    have hadd : doubleWord (DoubleWord.addHi hi lo bHi bLo,lo + bLo) =
        doubleWord (hi,lo) + doubleWord (bHi,bLo) := DoubleWord.append_add hi lo bHi bLo
    have hdouble : doubleWord (DoubleWord.doubleHi bHi bLo,bLo <<< 1) =
        doubleWord (bHi,bLo) + doubleWord (bHi,bLo) :=
      DoubleWord.append_double bHi bLo (by decide)
    have hbits : a.toNat % 2 ^ (n + 1) =
        a.toNat % 2 + (a.toNat / 2 % 2 ^ n + a.toNat / 2 % 2 ^ n) := by
      rw [pow_succ',Nat.mod_mul,Nat.two_mul]
    unfold multLoop
    simp only [and_signBit_ne_zero,hodd]
    by_cases hbit : a.toNat % 2 = 1
    · simp only [hbit,if_true,true_and]
      split
      · next hrest =>
        have hone := eq_one_of_exit hbit hrest
        have hlt : 1 < 2 ^ (n + 1) := Nat.one_lt_two_pow (Nat.succ_ne_zero n)
        rw [hone,Nat.mod_eq_of_lt hlt,BitVec.one_mul]
        exact hadd
      · refine (ih _ _ (DoubleWord.doubleHi bHi bLo) _ (DoubleWord.addHi hi lo bHi bLo)
          (by omega)).trans ?_
        rw [hadd,hdouble,sshiftRight_one_mod a (by omega),hbits,hbit,BitVec.ofNat_add,
          BitVec.ofNat_add,BitVec.add_mul,BitVec.one_mul]
        ring
    · simp only [hbit,if_false,false_and]
      refine (ih _ _ (DoubleWord.doubleHi bHi bLo) _ _ (by omega)).trans ?_
      have heven : a.toNat % 2 = 0 := by omega
      rw [hdouble,sshiftRight_one_mod a (by omega),hbits,heven,Nat.zero_add,BitVec.ofNat_add]
      ring

/-- The whole loop. -/
theorem multLoop_start (a b : BitVec 32) :
    doubleWord (multLoop a b 0#32 0#32 0#32 32) = BitVec.ofNat 64 (a.toNat * b.toNat) := by
  have hzero : doubleWord (0#32,0#32) = 0#64 := rfl
  have hb : doubleWord (0#32,b) = BitVec.ofNat 64 b.toNat := by
    refine (DoubleWord.append_eq_ofNat 0#32 b rfl).trans ?_
    rw [Nat.zero_mul,Nat.zero_add]
  rw [multLoop_eq a b 0#32 0#32 0#32 le_rfl,hzero,hb,BitVec.zero_add,Nat.mod_eq_of_lt a.isLt,
    BitVec.ofNat_mul]

theorem slt_zero_iff (x : BitVec 32) : x.slt 0#32 = true ↔ x.toInt < 0 := by
  rw [BitVec.slt_iff_toInt_lt]
  rfl

/-- An operand without its sign; -2^31 has no positive counterpart, but its word is right as an
unsigned number. -/
theorem toNat_unsigned (x : BitVec 32) :
    (if x.slt 0#32 then -x else x).toNat = x.toInt.natAbs := by
  have hlt := x.isLt
  have hint := BitVec.toInt_eq_toNat_cond x
  simp only [slt_zero_iff]
  split
  · rw [BitVec.toNat_neg]
    split_ifs at hint <;> omega
  · split_ifs at hint <;> omega

theorem Mult_unsigned (a b : BitVec 32) :
    doubleWord (Mult a b false) = BitVec.ofNat 64 (a.toNat * b.toNat) := by
  unfold Mult
  split
  · next hzero => rcases hzero with rfl | rfl <;> simp [doubleWord]
  · exact multLoop_start a b

theorem Mult_signed (a b : BitVec 32) :
    doubleWord (Mult a b true) = BitVec.ofInt 64 (a.toInt * b.toInt) := by
  unfold Mult
  split
  · next hzero => rcases hzero with rfl | rfl <;> simp [doubleWord]
  · have hloop := multLoop_start (if a.slt 0#32 then -a else a) (if b.slt 0#32 then -b else b)
    have hproduct : BitVec.ofNat 64 (a.toInt * b.toInt).natAbs =
        BitVec.ofInt 64 |a.toInt * b.toInt| := by
      rw [← Int.natCast_natAbs,BitVec.ofInt_natCast]
    rw [toNat_unsigned,toNat_unsigned,← Int.natAbs_mul,hproduct] at hloop
    simp only [Bool.true_and]
    generalize multLoop _ _ 0#32 0#32 0#32 32 = p at hloop ⊢
    have hneg : doubleWord (DoubleWord.negHi p.1 p.2,~~~p.2 + 1#32) = -doubleWord p :=
      DoubleWord.append_neg p.1 p.2 (by decide)
    split
    · next hsigns =>
      have hle : a.toInt * b.toInt ≤ 0 := by
        rw [bne_iff_ne,Ne,Bool.eq_iff_iff,slt_zero_iff,slt_zero_iff] at hsigns
        rcases lt_or_ge a.toInt 0 with ha | ha
        · exact mul_nonpos_of_nonpos_of_nonneg ha.le (by omega)
        · exact mul_nonpos_of_nonneg_of_nonpos ha (by omega)
      refine hneg.trans ?_
      rw [hloop,← BitVec.ofInt_neg,abs_of_nonpos hle,neg_neg]
    · next hsigns =>
      have hge : 0 ≤ a.toInt * b.toInt := by
        rw [bne_iff_ne,Ne,not_not,Bool.eq_iff_iff,slt_zero_iff,slt_zero_iff] at hsigns
        rcases lt_or_ge a.toInt 0 with ha | ha
        · exact mul_nonneg_of_nonpos_of_nonpos ha.le (hsigns.mp ha).le
        · exact mul_nonneg ha (by omega)
      rw [abs_of_nonneg hge] at hloop
      exact hloop

/-- `Mult` leaves the product of the two numbers in the two words, signed or unsigned. -/
theorem mult_exact (a b : BitVec 32) :
    (doubleWord (Mult a b true)).toInt = a.toInt * b.toInt ∧
    (doubleWord (Mult a b false)).toNat = a.toNat * b.toNat := by
  constructor
  · have hle := BitVec.toInt_mul_toInt_le (x := a) (y := b)
    have hge := BitVec.le_toInt_mul_toInt (x := a) (y := b)
    rw [Mult_signed]
    exact BitVec.toInt_ofInt_eq_self (by decide) (by norm_num at hge ⊢; omega)
      (by norm_num at hle ⊢; omega)
  · have hlt : a.toNat * b.toNat < 2 ^ 32 * 2 ^ 32 := Nat.mul_lt_mul'' a.isLt b.isLt
    rw [Mult_unsigned,BitVec.toNat_ofNat]
    exact Nat.mod_eq_of_lt hlt

end Machine

namespace Machine

variable {m : Machine} {instr : Instruction} {dest : ℕ} {value : BitVec 32}

/-! Instructions that write one register.  A load that was pending completes after them. -/

theorem finished_of_lt (f : ℕ → BitVec 32) (next : ℕ) (v pc : BitVec 32) {i : ℕ} (hi : i < PCReg) :
    finished f next v pc i = loaded f next v i := by
  have hpc := hi.ne
  have hnextPC := (hi.trans (show PCReg < NextPCReg by decide)).ne
  have hprevPC := (hi.trans (show PCReg < PrevPCReg by decide)).ne
  simp only [finished,Function.update_apply,if_neg hpc,if_neg hnextPC,if_neg hprevPC]

/-- A register written by the instruction, unless the load goes to it, and all others as the
load leaves them. -/
theorem OneInstruction_toReg (hload : (m.registers LoadReg).toNat < NumTotalRegs)
    (hfetch : m.Fetches instr) (hdest : dest < PCReg)
    (he : (operands m instr).effect instr = (operands m instr).toReg dest value) :
    ∃ m', m.OneInstruction = .ok m' ∧ ∀ i < PCReg,
      m'.registers i = loaded (Function.update m.registers dest value) 0 0#32 i := by
  obtain ⟨t,hone⟩ := OneInstruction_write hfetch he
  have hpending : (Function.update m.registers dest value LoadReg).toNat < NumTotalRegs := by
    rw [Function.update_of_ne (hdest.trans (by decide)).ne']
    exact hload
  exact ⟨_,hone.trans (finish_eq hpending),fun i hi => finished_of_lt _ _ _ _ hi⟩

/-- An instruction that raises an exception of its own. -/
theorem OneInstruction_raise (hload : (m.registers LoadReg).toNat < NumTotalRegs)
    (hfetch : m.Fetches instr) {which : ExceptionType}
    (he : (operands m instr).effect instr = .raise which) :
    ∃ m', m.OneInstruction = .error (.exception which m') ∧ ∀ i < LoadReg,
      m'.registers i = loaded m.registers 0 0#32 i := by
  obtain ⟨t,_,hone⟩ := OneInstruction_effect hfetch
  rw [he] at hone
  have hraise : m.OneInstruction = RaiseException { m with translation := t } which 0#32 :=
    hone.trans (RaiseException_bind _ _ _ _)
  exact ⟨_,hraise.trans (RaiseException_eq (m := { m with translation := t }) hload _ _),
    fun i hi => raised_of_lt { m with translation := t } 0#32 hi⟩

/-! Shifts. -/

end Machine

/-- The result of a shift by `s` places, as the processor's manual defines it. -/
def shifted (op : OpCode) (v : BitVec 32) (s : ℕ) : BitVec 32 :=
  match op with
  | OP_SLL | OP_SLLV => BitVec.ofNat 32 (v.toNat * 2 ^ s)
  | OP_SRL | OP_SRLV => BitVec.ofNat 32 (v.toNat / 2 ^ s)
  | _ => BitVec.ofInt 32 (v.toInt / 2 ^ s)

/-- The result that `OneInstruction` computes. -/
def hostShifted (op : OpCode) (v : BitVec 32) (s : ℕ) : BitVec 32 :=
  if op ∈ [OP_SLL,OP_SLLV] then v <<< s else v.sshiftRight s

def shiftOps : List OpCode := [OP_SLL,OP_SLLV,OP_SRL,OP_SRLV,OP_SRA,OP_SRAV]

theorem shiftLeft_eq_ofNat (v : BitVec 32) (s : ℕ) :
    v <<< s = BitVec.ofNat 32 (v.toNat * 2 ^ s) := by
  apply BitVec.eq_of_toNat_eq
  rw [BitVec.toNat_shiftLeft,Nat.shiftLeft_eq,BitVec.toNat_ofNat]

theorem ushiftRight_eq_ofNat (v : BitVec 32) (s : ℕ) :
    v >>> s = BitVec.ofNat 32 (v.toNat / 2 ^ s) := by
  apply BitVec.eq_of_toNat_eq
  have hlt : v.toNat / 2 ^ s < 2 ^ 32 := (Nat.div_le_self _ _).trans_lt v.isLt
  rw [BitVec.toNat_ushiftRight,Nat.shiftRight_eq_div_pow,BitVec.toNat_ofNat,Nat.mod_eq_of_lt hlt]

theorem sshiftRight_eq_ofInt (v : BitVec 32) (s : ℕ) :
    v.sshiftRight s = BitVec.ofInt 32 (v.toInt / 2 ^ s) := by
  have hint : (v.sshiftRight s).toInt = v.toInt / 2 ^ s := by
    rw [BitVec.toInt_sshiftRight,Int.shiftRight_eq_div_pow]
    rfl
  rw [← hint,BitVec.ofInt_toInt]

/-- The sign is shifted in, unless it is zero or nothing is shifted. -/
theorem sshiftRight_eq_ushiftRight_iff (v : BitVec 32) (s : ℕ) :
    v.sshiftRight s = v >>> s ↔ v.msb = false ∨ s = 0 := by
  constructor
  · intro h
    have hmsb := congrArg BitVec.msb h
    rw [BitVec.msb_sshiftRight,BitVec.msb_ushiftRight] at hmsb
    rcases Nat.eq_zero_or_pos s with hs | hs
    · exact Or.inr hs
    · exact Or.inl (by simpa [hs] using hmsb)
  · rintro (hmsb | rfl)
    · exact BitVec.sshiftRight_eq_of_msb_false hmsb
    · rw [BitVec.sshiftRight_zero,BitVec.ushiftRight_zero]

theorem hostShifted_eq_iff {op : OpCode} (hop : op ∈ shiftOps) (v : BitVec 32) (s : ℕ) :
    hostShifted op v s = shifted op v s ↔
      ¬ (op ∈ [OP_SRL,OP_SRLV] ∧ v.msb = true ∧ s ≠ 0) := by
  have hlogical : v.sshiftRight s = BitVec.ofNat 32 (v.toNat / 2 ^ s) ↔
      ¬ (v.msb = true ∧ s ≠ 0) := by
    rw [← ushiftRight_eq_ofNat,sshiftRight_eq_ushiftRight_iff,not_and_or,not_not,
      Bool.not_eq_true]
  simp only [shiftOps,List.mem_cons,List.not_mem_nil,or_false] at hop
  rcases hop with rfl | rfl | rfl | rfl | rfl | rfl
  · simp [hostShifted,shifted,shiftLeft_eq_ofNat]
  · simp [hostShifted,shifted,shiftLeft_eq_ofNat]
  · simpa [hostShifted,shifted] using hlogical
  · simpa [hostShifted,shifted] using hlogical
  · simp [hostShifted,shifted,sshiftRight_eq_ofInt]
  · simp [hostShifted,shifted,sshiftRight_eq_ofInt]

namespace Machine

/-- From the shift amount field, or from the low bits of a register. -/
def shiftAmount (m : Machine) (instr : Instruction) : ℕ :=
  if instr.opCode ∈ [OP_SLL,OP_SRL,OP_SRA] then instr.shamt
  else (m.registers instr.rs).toNat % 2 ^ 5

theorem shift_effect {m : Machine} {instr : Instruction} (hfetch : m.Fetches instr)
    (hop : instr.opCode ∈ shiftOps) :
    (operands m instr).effect instr = (operands m instr).toReg instr.rd
      (hostShifted instr.opCode (m.registers instr.rt) (m.shiftAmount instr)) := by
  have hfield : instr.opCode ∈ [OP_SLL,OP_SRL,OP_SRA] →
      instr.extra.toNat = m.shiftAmount instr := by
    intro h
    obtain ⟨raw,_,_,rfl⟩ := hfetch
    exact (Instruction.decode_shamt raw h).trans (if_pos h).symm
  have hregister : instr.opCode ∉ [OP_SLL,OP_SRL,OP_SRA] →
      ((operands m instr).rs &&& 0x1f#32).toNat = m.shiftAmount instr := by
    intro h
    rw [shiftAmount,if_neg h,BitVec.toNat_and]
    exact Nat.and_two_pow_sub_one_eq_mod _ 5
  by_cases hmem : instr.opCode ∈ [OP_SLL,OP_SRL,OP_SRA]
  · rw [← hfield hmem]
    simp only [List.mem_cons,List.not_mem_nil,or_false] at hmem
    rcases hmem with h | h | h <;> simp only [Operands.effect,h] <;> rfl
  · rw [← hregister hmem]
    simp only [shiftOps,List.mem_cons,List.not_mem_nil,or_false] at hop hmem
    rcases hop with h | h | h | h | h | h
    · exact absurd (Or.inl h) hmem
    · simp only [Operands.effect,h]
      rfl
    · exact absurd (Or.inr (Or.inl h)) hmem
    · simp only [Operands.effect,h]
      rfl
    · exact absurd (Or.inr (Or.inr h)) hmem
    · simp only [Operands.effect,h]
      rfl

/-- A result that goes to register 0 or to the target of the pending load is not seen. -/
theorem loaded_update_hidden {f : ℕ → BitVec 32} {dest : ℕ} (hdest : dest < LoadReg)
    (h : dest = 0 ∨ dest = (f LoadReg).toNat) (v v' : BitVec 32) {i : ℕ} (hi : i < LoadReg) :
    loaded (Function.update f dest v) 0 0#32 i = loaded (Function.update f dest v') 0 0#32 i := by
  have hvalue := (hdest.trans (show LoadReg < LoadValueReg by decide)).ne'
  rw [loaded_of_lt _ _ _ hi,loaded_of_lt _ _ _ hi]
  simp only [Function.update_of_ne hdest.ne',Function.update_of_ne hvalue]
  by_cases hsame : i = dest
  · rcases h with h | h
    · rw [if_pos (hsame.trans h),if_pos (hsame.trans h)]
    · rw [if_pos (hsame.trans h),if_pos (hsame.trans h)]
  · rw [Function.update_of_ne hsame,Function.update_of_ne hsame]

/-- A shift does what the manual says, unless it is a logical shift to the right of a number whose
sign bit is set; the difference is not seen if the result goes nowhere. -/
theorem shifts_iff {m : Machine} {instr : Instruction}
    (hload : (m.registers LoadReg).toNat < NumTotalRegs) (hfetch : m.Fetches instr)
    (hop : instr.opCode ∈ shiftOps) :
    (∃ m', m.OneInstruction = .ok m' ∧ ∀ i < NumGPRegs, m'.registers i =
      loaded (Function.update m.registers instr.rd
        (shifted instr.opCode (m.registers instr.rt) (m.shiftAmount instr))) 0 0#32 i) ↔
    ¬ (instr.opCode ∈ [OP_SRL,OP_SRLV] ∧ (m.registers instr.rt).msb = true ∧
      m.shiftAmount instr ≠ 0 ∧ instr.rd ≠ 0 ∧ instr.rd ≠ (m.registers LoadReg).toNat) := by
  obtain ⟨_,_,hrd⟩ := hfetch.registers_lt
  obtain ⟨m₁,hone,hregisters⟩ :=
    OneInstruction_toReg hload hfetch (hrd.trans (by decide)) (shift_effect hfetch hop)
  have hiff := hostShifted_eq_iff hop (m.registers instr.rt) (m.shiftAmount instr)
  have hlt : instr.rd < LoadReg := hrd.trans (by decide)
  have hne : instr.rd ≠ LoadReg := hlt.ne
  constructor
  · rintro ⟨m',hone',hregisters'⟩ ⟨hop,hmsb,hamount,hzero,hpending⟩
    cases hone.symm.trans hone'
    have hboth := (hregisters instr.rd (hrd.trans (by decide))).symm.trans
      (hregisters' instr.rd hrd)
    rw [loaded_of_lt _ _ _ hlt,loaded_of_lt _ _ _ hlt,if_neg hzero,if_neg hzero,
      Function.update_of_ne hne.symm,Function.update_of_ne hne.symm,if_neg hpending,if_neg hpending,
      Function.update_self,Function.update_self] at hboth
    exact hiff.mp hboth ⟨hop,hmsb,hamount⟩
  · intro hnot
    refine ⟨m₁,hone,fun i hi => ?_⟩
    rw [hregisters i (hi.trans (by decide))]
    by_cases hhidden : instr.rd = 0 ∨ instr.rd = (m.registers LoadReg).toNat
    · exact loaded_update_hidden hlt hhidden _ _ (hi.trans (by decide))
    · rw [not_or] at hhidden
      rw [hiff.mpr fun ⟨hop,hmsb,hamount⟩ => hnot ⟨hop,hmsb,hamount,hhidden⟩]

/-- One page of memory with an instruction in it, a load of 7 into register 3 pending, and
numbers in registers 4 and 5. -/
def computing (word rs rt : BitVec 32) : Machine where
  registers := fun i => if i = 4 then rs else if i = 5 then rt else (pendingLoad word).registers i
  mainMemory := (pendingLoad word).mainMemory
  translation := (pendingLoad word).translation

/-- `sra $2,$5,1` with -2 in register 5. -/
theorem shifts_iff_sra : ∃ m',
    (computing 0x00051043#32 0#32 0xfffffffe#32).OneInstruction = .ok m' ∧
    m'.registers 2 = 0xffffffff#32 ∧ m'.registers 3 = 7#32 := by
  obtain ⟨m',hone,hregisters⟩ := (shifts_iff (m := computing 0x00051043#32 0#32 0xfffffffe#32)
    (by decide) ⟨0x00051043#32,_,rfl,rfl⟩ (by decide)).mpr (by decide)
  exact ⟨m',hone,(hregisters 2 (by decide)).trans (by decide),
    (hregisters 3 (by decide)).trans (by decide)⟩

/-- `srl $2,$5,1` with -2 in register 5: the sign bit is kept. -/
theorem srl_shifts_sign_in :
    (∃ instr, (computing 0x00051042#32 0#32 0xfffffffe#32).Fetches instr ∧ instr.opCode = OP_SRL ∧
      instr.rt = 5 ∧ instr.rd = 2 ∧ instr.shamt = 1) ∧
    (∃ m', (computing 0x00051042#32 0#32 0xfffffffe#32).OneInstruction = .ok m' ∧
      m'.registers 2 = 0xffffffff#32) ∧
    shifted OP_SRL 0xfffffffe#32 1 = 0x7fffffff#32 := by
  refine ⟨⟨_,⟨0x00051042#32,_,rfl,rfl⟩,by decide,by decide,by decide,by decide⟩,⟨_,rfl,?_⟩,
    by decide⟩
  rfl

/-! Sums and differences. -/

def trappingOps : List OpCode := [OP_ADD,OP_ADDI,OP_SUB]

def wrappingOps : List OpCode := [OP_ADDU,OP_ADDIU,OP_SUBU]

section

variable (m : Machine) (instr : Instruction)

/-- The second operand. -/
def secondOperand : ℤ :=
  if instr.opCode ∈ [OP_ADDI,OP_ADDIU] then instr.immediate.toInt else (m.registers instr.rt).toInt

/-- The sum or the difference as an integer. -/
def exactResult : ℤ :=
  if instr.opCode ∈ [OP_SUB,OP_SUBU] then (m.registers instr.rs).toInt - m.secondOperand instr
  else (m.registers instr.rs).toInt + m.secondOperand instr

end

/-- The range of a register read as a signed number. -/
def Fits (x : ℤ) : Prop := -2 ^ 31 ≤ x ∧ x ≤ 2 ^ 31 - 1

instance (x : ℤ) : Decidable (Fits x) := inferInstanceAs (Decidable (_ ∧ _))

theorem addOverflow_iff (a b : BitVec 32) :
    addOverflow a b (a + b) = true ↔ ¬ Fits (a.toInt + b.toInt) := by
  have hcore : addOverflow a b (a + b) = a.saddOverflow b := by
    rw [BitVec.saddOverflow_eq]
    simp only [addOverflow,signBit_eq_msb,BitVec.msb_xor]
    cases a.msb <;> cases b.msb <;> cases (a + b).msb <;> rfl
  rw [hcore]
  simp only [BitVec.saddOverflow,Fits,Bool.or_eq_true,decide_eq_true_eq]
  omega

theorem addiOverflow_iff (a b : BitVec 32) :
    addiOverflow a b (a + b) = true ↔ ¬ Fits (a.toInt + b.toInt) := by
  have hsame : addiOverflow a b (a + b) = addOverflow a b (a + b) := by
    simp only [addiOverflow,addOverflow,signBit_eq_msb,BitVec.msb_xor]
    cases a.msb <;> cases b.msb <;> cases (a + b).msb <;> rfl
  rw [hsame,addOverflow_iff]

theorem subOverflow_iff (a b : BitVec 32) :
    subOverflow a b (a - b) = true ↔ ¬ Fits (a.toInt - b.toInt) := by
  have hcore : subOverflow a b (a - b) = a.ssubOverflow b := by
    rw [BitVec.ssubOverflow_eq]
    simp only [subOverflow,signBit_eq_msb,BitVec.msb_xor]
    cases a.msb <;> cases b.msb <;> cases (a - b).msb <;> rfl
  rw [hcore]
  simp only [BitVec.ssubOverflow,Fits,Bool.or_eq_true,decide_eq_true_eq]
  omega

theorem ofInt_toInt_add (a b : BitVec 32) : BitVec.ofInt 32 (a.toInt + b.toInt) = a + b := by
  rw [BitVec.ofInt_add,BitVec.ofInt_toInt,BitVec.ofInt_toInt]

theorem ofInt_toInt_sub (a b : BitVec 32) : BitVec.ofInt 32 (a.toInt - b.toInt) = a - b := by
  rw [Int.sub_eq_add_neg,BitVec.ofInt_add,BitVec.ofInt_neg,BitVec.ofInt_toInt,BitVec.ofInt_toInt,
    ← BitVec.sub_eq_add_neg]

section Sums

variable {m : Machine} {instr : Instruction} {dest : ℕ}

/-- The second operand as the word that the operation is done with. -/
theorem secondOperand_extra (hfetch : m.Fetches instr) (hop : instr.opCode ∈ [OP_ADDI,OP_ADDIU]) :
    m.secondOperand instr = instr.extra.toInt := by
  obtain ⟨raw,_,_,rfl⟩ := hfetch
  rw [secondOperand,if_pos hop,Instruction.decode_immediate raw hop,
    BitVec.toInt_signExtend_of_le (by decide)]

theorem sum_of_registers (h : instr.opCode = OP_ADD ∨ instr.opCode = OP_ADDU)
    (hdest : instr.destination = some dest) : instr.rd = dest ∧
      m.exactResult instr = (m.registers instr.rs).toInt + (m.registers instr.rt).toInt := by
  rcases h with h | h
  · simpa [Instruction.destination,exactResult,secondOperand,h] using hdest
  · simpa [Instruction.destination,exactResult,secondOperand,h] using hdest

theorem sum_of_immediate (hfetch : m.Fetches instr)
    (h : instr.opCode = OP_ADDI ∨ instr.opCode = OP_ADDIU) (hdest : instr.destination = some dest) :
    instr.rt = dest ∧
      m.exactResult instr = (m.registers instr.rs).toInt + instr.extra.toInt := by
  have hoperand : m.secondOperand instr = instr.extra.toInt :=
    secondOperand_extra hfetch (by simpa using h)
  rcases h with h | h
  · simpa [Instruction.destination,exactResult,hoperand,h] using hdest
  · simpa [Instruction.destination,exactResult,hoperand,h] using hdest

theorem difference_of_registers (h : instr.opCode = OP_SUB ∨ instr.opCode = OP_SUBU)
    (hdest : instr.destination = some dest) : instr.rd = dest ∧
      m.exactResult instr = (m.registers instr.rs).toInt - (m.registers instr.rt).toInt := by
  rcases h with h | h
  · simpa [Instruction.destination,exactResult,secondOperand,h] using hdest
  · simpa [Instruction.destination,exactResult,secondOperand,h] using hdest

theorem trapping_effect (hfetch : m.Fetches instr) (hop : instr.opCode ∈ trappingOps)
    (hdest : instr.destination = some dest) : ∃ overflow,
      (overflow = true ↔ ¬ Fits (m.exactResult instr)) ∧
      (operands m instr).effect instr =
        (operands m instr).trapping dest (BitVec.ofInt 32 (m.exactResult instr)) overflow := by
  simp only [trappingOps,List.mem_cons,List.not_mem_nil,or_false] at hop
  rcases hop with h | h | h
  · obtain ⟨rfl,hexact⟩ := sum_of_registers (m := m) (Or.inl h) hdest
    rw [hexact,ofInt_toInt_add]
    refine ⟨_,addOverflow_iff (m.registers instr.rs) (m.registers instr.rt),?_⟩
    simp only [Operands.effect,h]
    rfl
  · obtain ⟨rfl,hexact⟩ := sum_of_immediate hfetch (Or.inl h) hdest
    rw [hexact,ofInt_toInt_add]
    refine ⟨_,addiOverflow_iff (m.registers instr.rs) instr.extra,?_⟩
    simp only [Operands.effect,h]
    rfl
  · obtain ⟨rfl,hexact⟩ := difference_of_registers (m := m) (Or.inl h) hdest
    rw [hexact,ofInt_toInt_sub]
    refine ⟨_,subOverflow_iff (m.registers instr.rs) (m.registers instr.rt),?_⟩
    simp only [Operands.effect,h]
    rfl

theorem wrapping_effect (hfetch : m.Fetches instr) (hop : instr.opCode ∈ wrappingOps)
    (hdest : instr.destination = some dest) :
    (operands m instr).effect instr =
      (operands m instr).toReg dest (BitVec.ofInt 32 (m.exactResult instr)) := by
  simp only [wrappingOps,List.mem_cons,List.not_mem_nil,or_false] at hop
  rcases hop with h | h | h
  · obtain ⟨rfl,hexact⟩ := sum_of_registers (m := m) (Or.inr h) hdest
    rw [hexact,ofInt_toInt_add]
    simp only [Operands.effect,h]
    rfl
  · obtain ⟨rfl,hexact⟩ := sum_of_immediate hfetch (Or.inr h) hdest
    rw [hexact,ofInt_toInt_add]
    simp only [Operands.effect,h]
    rfl
  · obtain ⟨rfl,hexact⟩ := difference_of_registers (m := m) (Or.inr h) hdest
    rw [hexact,ofInt_toInt_sub]
    simp only [Operands.effect,h]
    rfl

theorem Fetches.destination_lt (hfetch : m.Fetches instr) (hdest : instr.destination = some dest) :
    dest < PCReg := by
  obtain ⟨_,hrt,hrd⟩ := hfetch.registers_lt
  have hrt : instr.rt < PCReg := hrt.trans (by decide)
  have hrd : instr.rd < PCReg := hrd.trans (by decide)
  unfold Instruction.destination at hdest
  split at hdest <;> cases hdest <;> first | exact hrd | exact hrt | decide

/-- The trapping operations raise an exception just if the exact result has no representation,
and write nothing then; otherwise the result is exact.  The others wrap around. -/
theorem overflow_exact (hload : (m.registers LoadReg).toNat < NumTotalRegs)
    (hfetch : m.Fetches instr) (hdest : instr.destination = some dest) :
    (instr.opCode ∈ trappingOps →
      ((∃ m', m.OneInstruction = .error (.exception .overflowException m')) ↔
        ¬ Fits (m.exactResult instr)) ∧
      (∀ m', m.OneInstruction = .error (.exception .overflowException m') →
        ∀ i < NumGPRegs, m'.registers i = loaded m.registers 0 0#32 i) ∧
      (Fits (m.exactResult instr) → ∃ m' value, m.OneInstruction = .ok m' ∧
        value.toInt = m.exactResult instr ∧ ∀ i < NumGPRegs,
          m'.registers i = loaded (Function.update m.registers dest value) 0 0#32 i)) ∧
    (instr.opCode ∈ wrappingOps → ∃ m', m.OneInstruction = .ok m' ∧ ∀ i < NumGPRegs,
      m'.registers i = loaded (Function.update m.registers dest
        (BitVec.ofInt 32 (m.exactResult instr))) 0 0#32 i) := by
  have hlt := hfetch.destination_lt hdest
  constructor
  · intro hop
    obtain ⟨overflow,hoverflow,he⟩ := trapping_effect hfetch hop hdest
    cases overflow with
    | true =>
      obtain ⟨m₁,hone,hregisters⟩ := OneInstruction_raise hload hfetch he
      have hrange : ¬ Fits (m.exactResult instr) := hoverflow.mp rfl
      refine ⟨⟨fun _ => hrange,fun _ => ⟨m₁,hone⟩⟩,fun m' hone' i hi => ?_,fun h => absurd h hrange⟩
      cases hone.symm.trans hone'
      exact hregisters i (hi.trans (by decide))
    | false =>
      obtain ⟨m₁,hone,hregisters⟩ := OneInstruction_toReg hload hfetch hlt he
      have hrange : Fits (m.exactResult instr) := by
        by_contra h
        cases hoverflow.mpr h
      have hnot : ∀ m', m.OneInstruction ≠ .error (.exception .overflowException m') := by
        intro m' h
        cases hone.symm.trans h
      refine ⟨⟨fun ⟨m',h⟩ => absurd h (hnot m'),fun h => absurd hrange h⟩,
        fun m' h => absurd h (hnot m'),
        fun _ => ⟨m₁,_,hone,?_,fun i hi => hregisters i (hi.trans (by decide))⟩⟩
      obtain ⟨hmin,hmax⟩ := hrange
      exact BitVec.toInt_ofInt_eq_self (by decide) hmin (by norm_num at hmax ⊢; omega)
  · intro hop
    obtain ⟨m₁,hone,hregisters⟩ :=
      OneInstruction_toReg hload hfetch hlt (wrapping_effect hfetch hop hdest)
    exact ⟨m₁,hone,fun i hi => hregisters i (hi.trans (by decide))⟩

/-- `add $2,$4,$5` with 2^31 - 1 and 1, which traps, and with 1 and 1. -/
theorem overflow_exact_add :
    (∃ m', (computing 0x00851020#32 0x7fffffff#32 1#32).OneInstruction =
      .error (.exception .overflowException m') ∧ m'.registers 2 = 0#32) ∧
    ∃ m', (computing 0x00851020#32 1#32 1#32).OneInstruction = .ok m' ∧ m'.registers 2 = 2#32 := by
  obtain ⟨htraps,hkept,_⟩ := (overflow_exact (m := computing 0x00851020#32 0x7fffffff#32 1#32)
    (by decide) ⟨0x00851020#32,_,rfl,rfl⟩ rfl).1 (by decide)
  obtain ⟨_,_,hfits⟩ := (overflow_exact (m := computing 0x00851020#32 1#32 1#32)
    (by decide) ⟨0x00851020#32,_,rfl,rfl⟩ rfl).1 (by decide)
  constructor
  · obtain ⟨m',hone⟩ := htraps.mpr (by decide)
    exact ⟨m',hone,(hkept m' hone 2 (by decide)).trans (by decide)⟩
  · obtain ⟨m',value,hone,hvalue,hregisters⟩ := hfits (by decide)
    have htwo : value = 2#32 := BitVec.eq_of_toInt_eq (hvalue.trans (by decide))
    refine ⟨m',hone,(hregisters 2 (by decide)).trans ?_⟩
    rw [htwo]
    decide

end Sums

/-! Quotients. -/

/-- Quotient and remainder, signed for `DIV`. -/
def IsQuotient (op : OpCode) (rs rt lo hi : BitVec 32) : Prop :=
  rs = lo * rt + hi ∧
    if op = OP_DIV then |hi.toInt| < |rt.toInt| ∧ lo.toInt = rs.toInt.tdiv rt.toInt
    else hi.toNat < rt.toNat ∧ lo.toNat = rs.toNat / rt.toNat

theorem isQuotient_signed {rs rt : BitVec 32} (hrt : rt ≠ 0#32) (htraps : ¬ DivideTraps rs rt) :
    IsQuotient OP_DIV rs rt (divideSigned rs rt).2 (divideSigned rs rt).1 := by
  have hzero : rt.toInt ≠ 0 := fun h => hrt (BitVec.eq_of_toInt_eq h)
  have hquotient : (rs.sdiv rt).toInt = rs.toInt.tdiv rt.toInt :=
    BitVec.toInt_sdiv_of_ne_or_ne rs rt (not_and_or.mp htraps)
  have hremainder : (rs.srem rt).toInt = rs.toInt.tmod rt.toInt := BitVec.toInt_srem rs rt
  rw [divideSigned,if_neg hrt,IsQuotient,if_pos rfl]
  refine ⟨?_,?_,hquotient⟩
  · calc rs = BitVec.ofInt 32 rs.toInt := BitVec.ofInt_toInt.symm
      _ = BitVec.ofInt 32 (rs.toInt.tdiv rt.toInt * rt.toInt + rs.toInt.tmod rt.toInt) := by
        rw [Int.tdiv_mul_add_tmod]
      _ = rs.sdiv rt * rt + rs.srem rt := by
        rw [← hquotient,← hremainder,BitVec.ofInt_add,BitVec.ofInt_mul,BitVec.ofInt_toInt,
          BitVec.ofInt_toInt,BitVec.ofInt_toInt]
  · rw [hremainder,Int.abs_eq_natAbs,Int.abs_eq_natAbs,Int.natAbs_tmod]
    exact Int.ofNat_lt.mpr (Nat.mod_lt _ (Int.natAbs_pos.mpr hzero))

theorem isQuotient_unsigned {rs rt : BitVec 32} (hrt : rt ≠ 0#32) :
    IsQuotient OP_DIVU rs rt (divideUnsigned rs rt).2 (divideUnsigned rs rt).1 := by
  have hzero : rt.toNat ≠ 0 := fun h => hrt (BitVec.eq_of_toNat_eq h)
  rw [divideUnsigned,if_neg hrt,IsQuotient,if_neg (by decide)]
  refine ⟨?_,?_,BitVec.toNat_udiv⟩
  · apply BitVec.eq_of_toNat_eq
    rw [BitVec.toNat_add,BitVec.toNat_mul,BitVec.toNat_udiv,BitVec.toNat_umod,Nat.mod_add_mod,
      Nat.div_add_mod',Nat.mod_eq_of_lt rs.isLt]
  · rw [BitVec.toNat_umod]
    exact Nat.mod_lt _ (Nat.pos_of_ne_zero hzero)

section Quotients

variable {m : Machine} {instr : Instruction}

/-- An instruction that writes Hi and Lo, which no load has as its target. -/
theorem OneInstruction_toHiLo (hload : (m.registers LoadReg).toNat < NumGPRegs)
    (hfetch : m.Fetches instr) {p : BitVec 32 × BitVec 32}
    (he : (operands m instr).effect instr = (operands m instr).toHiLo p) :
    ∃ m', m.OneInstruction = .ok m' ∧ m'.registers HiReg = p.1 ∧ m'.registers LoReg = p.2 := by
  obtain ⟨t,hone⟩ := OneInstruction_write hfetch he
  have hkept : written m.registers [(LoReg,p.2),(HiReg,p.1)] LoadReg = m.registers LoadReg := rfl
  have hpending : (written m.registers [(LoReg,p.2),(HiReg,p.1)] LoadReg).toNat < NumGPRegs := by
    rw [hkept]
    exact hload
  have hkeeps : ∀ i, NumGPRegs ≤ i → i < PCReg →
      finished (written m.registers [(LoReg,p.2),(HiReg,p.1)]) 0 0#32 (operands m instr).pcAfter i =
        written m.registers [(LoReg,p.2),(HiReg,p.1)] i := fun i hge hlt =>
    (finished_of_lt _ _ _ _ hlt).trans (loaded_of_le hpending hge (hlt.trans (by decide)))
  exact ⟨_,hone.trans (finish_eq (hpending.trans (by decide))),
    hkeeps HiReg (by decide) (by decide),hkeeps LoReg (by decide) (by decide)⟩

/-- Quotient and remainder are right for every pair of numbers but one: the host's own division
traps on -2^31 and -1. -/
theorem divisions_iff (hload : (m.registers LoadReg).toNat < NumGPRegs) (hfetch : m.Fetches instr)
    (hop : instr.opCode = OP_DIV ∨ instr.opCode = OP_DIVU) :
    (∃ m', m.OneInstruction = .ok m' ∧ (m.registers instr.rt ≠ 0#32 →
      IsQuotient instr.opCode (m.registers instr.rs) (m.registers instr.rt)
        (m'.registers LoReg) (m'.registers HiReg))) ↔
    ¬ (instr.opCode = OP_DIV ∧ DivideTraps (m.registers instr.rs) (m.registers instr.rt)) := by
  have hsame : (operands m instr).rs = m.registers instr.rs ∧
      (operands m instr).rt = m.registers instr.rt := ⟨rfl,rfl⟩
  rcases hop with hop | hop
  · by_cases htraps : DivideTraps (m.registers instr.rs) (m.registers instr.rt)
    · obtain ⟨t,_,hone⟩ := OneInstruction_effect hfetch
      have he : (operands m instr).effect instr = .divide := by
        simp only [Operands.effect,hop,hsame,if_pos htraps]
      rw [he] at hone
      refine ⟨fun ⟨m',h,_⟩ => ?_,fun h => absurd ⟨hop,htraps⟩ h⟩
      cases hone.symm.trans h
    · have he : (operands m instr).effect instr = (operands m instr).toHiLo
          (divideSigned (m.registers instr.rs) (m.registers instr.rt)) := by
        simp only [Operands.effect,hop,hsame,if_neg htraps]
      obtain ⟨m',hone,hhi,hlo⟩ := OneInstruction_toHiLo hload hfetch he
      refine ⟨fun _ h => htraps h.2,fun _ => ⟨m',hone,fun hrt => ?_⟩⟩
      rw [hhi,hlo,hop]
      exact isQuotient_signed hrt htraps
  · have he : (operands m instr).effect instr = (operands m instr).toHiLo
        (divideUnsigned (m.registers instr.rs) (m.registers instr.rt)) := by
      simp only [Operands.effect,hop,hsame]
    obtain ⟨m',hone,hhi,hlo⟩ := OneInstruction_toHiLo hload hfetch he
    refine ⟨fun _ h => absurd (hop.symm.trans h.1) (by decide),fun _ => ⟨m',hone,fun hrt => ?_⟩⟩
    rw [hhi,hlo,hop]
    exact isQuotient_unsigned hrt

/-- `div $4,$5` with -7 and 2. -/
theorem divisions_iff_negative : ∃ m',
    (computing 0x0085001a#32 0xfffffff9#32 2#32).OneInstruction = .ok m' ∧
      (m'.registers LoReg).toInt = -3 := by
  obtain ⟨m',hone,hquotient⟩ := (divisions_iff (m := computing 0x0085001a#32 0xfffffff9#32 2#32)
    (by decide) ⟨0x0085001a#32,_,rfl,rfl⟩ (by decide)).mpr (by decide)
  exact ⟨m',hone,(hquotient (by decide)).2.2.trans (by decide)⟩

/-- `div $4,$5` with -2^31 and -1 stops the simulator. -/
theorem division_stops_simulator :
    (∃ instr, (computing 0x0085001a#32 0x80000000#32 0xffffffff#32).Fetches instr ∧
      instr.opCode = OP_DIV ∧ instr.rs = 4 ∧ instr.rt = 5) ∧
    (computing 0x0085001a#32 0x80000000#32 0xffffffff#32).OneInstruction = .error .divide :=
  ⟨⟨_,⟨0x0085001a#32,_,rfl,rfl⟩,by decide,by decide,by decide⟩,rfl⟩

end Quotients

end Machine
end Hardware
end NachOS
