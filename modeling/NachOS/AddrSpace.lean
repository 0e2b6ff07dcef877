import NachOS.UserMemory

/-! The address space of a user program (userprog/addrspace.cc): its page table maps each
page to the frame of the same number. -/
namespace NachOS

open Translation Hardware

abbrev UserStackSize : ℕ := 1024
abbrev StackReg : ℕ := 29

structure AddrSpace where
  pageTable : ℕ → TranslationEntry
  numPages : ℕ

namespace AddrSpace

/-- The constructor also clears main memory; `numPages` is set later, by `Load`. -/
def new (m : Machine) (numPages : ℕ) : AddrSpace × Machine :=
  (⟨fun i => ⟨BitVec.ofNat 32 i,BitVec.ofNat 32 i,true,false,false,false⟩,numPages⟩,
    { m with mainMemory := fun i => if i < MemorySize then 0#8 else m.mainMemory i })

def RestoreState (s : AddrSpace) (m : Machine) : Machine :=
  { m with translation := .pageTable s.pageTable s.numPages }

/-- All registers are zero but the program counters and the stack pointer. -/
def initialRegisters (numPages : ℕ) (registers : ℕ → BitVec 32) : ℕ → BitVec 32 :=
  let f : ℕ → BitVec 32 := fun i => if i < NumTotalRegs then 0#32 else registers i
  Function.update (Function.update (Function.update f PCReg 0#32) NextPCReg 4#32) StackReg
    (BitVec.ofNat 32 (numPages * PageSize) - 16#32)

def InitRegisters (s : AddrSpace) (m : Machine) : Machine :=
  { m with registers := initialRegisters s.numPages m.registers }

variable (m m' : Machine) {numPages : ℕ}

/-- Virtual addresses are physical addresses. -/
theorem physical_new {x : BitVec 32} (hpages : numPages ≤ NumPhysPages) (writing : Bool) :
    ((new m numPages).1.RestoreState m').translation.physical x writing =
      if x.toNat < numPages * PageSize then .ok (x.toNat / PageSize,x.toNat)
      else .error .addressErrorException := by
  have hvpn : x.toNat / PageSize < numPages ↔ x.toNat < numPages * PageSize :=
    Nat.div_lt_iff_lt_mul (by decide)
  by_cases hx : x.toNat < numPages * PageSize
  · have hlt := hvpn.mpr hx
    have hframe : (BitVec.ofNat 32 (x.toNat / PageSize)).toNat = x.toNat / PageSize := by
      rw [BitVec.toNat_ofNat]
      exact Nat.mod_eq_of_lt (by simp only [NumPhysPages] at hpages; omega)
    have hsum : x.toNat / PageSize * PageSize + x.toNat % PageSize = x.toNat :=
      Nat.div_add_mod' _ _
    have hindex : ((new m numPages).1.RestoreState m').translation.index (x.toNat / PageSize) =
        .ok (x.toNat / PageSize) := by
      simp only [new,RestoreState,index,if_neg (Nat.not_le.mpr hlt)]
      rfl
    rw [if_pos hx,physical,hindex]
    show (if false = true ∧ writing = true then Except.error ExceptionType.readOnlyException
      else if (BitVec.ofNat 32 (x.toNat / PageSize)).toNat ≥ NumPhysPages then
        Except.error ExceptionType.busErrorException
      else Except.ok (x.toNat / PageSize,
        (BitVec.ofNat 32 (x.toNat / PageSize)).toNat * PageSize + x.toNat % PageSize)) = _
    rw [hframe,hsum,if_neg (by simp),if_neg (by omega)]
  · have hge : x.toNat / PageSize ≥ numPages := Nat.le_of_not_lt (mt hvpn.mp hx)
    rw [if_neg hx]
    simp only [new,RestoreState,physical,index,if_pos hge]
    rfl

/-- Distinct addresses of a user program are distinct in main memory. -/
theorem apart_new (hpages : numPages ≤ NumPhysPages) :
    ((new m numPages).1.RestoreState m').translation.Apart := by
  intro x y p hx hy
  unfold address at hx hy
  rw [physical_new m m' hpages] at hx hy
  split_ifs at hx hy
  cases hx
  exact BitVec.eq_of_toNat_eq (Option.some.inj hy).symm

/-- Every address of the user program may be written. -/
theorem writable_new {x : BitVec 32} (hpages : numPages ≤ NumPhysPages)
    (hx : x.toNat < numPages * PageSize) :
    ((new m numPages).1.RestoreState m').translation.Writable x := by
  refine ⟨x.toNat / PageSize,x.toNat,?_⟩
  rw [physical_new m m' hpages,if_pos hx]

end AddrSpace

/-! The registers of a user program while its thread is switched out (threads/thread.cc). -/

abbrev UserRegisters : Type := Fin NumTotalRegs → BitVec 32

def SaveUserState (registers : ℕ → BitVec 32) : UserRegisters := fun i => registers i

def RestoreUserState (userRegisters : UserRegisters) (registers : ℕ → BitVec 32) :
    ℕ → BitVec 32 := fun i =>
  if h : i < NumTotalRegs then userRegisters ⟨i,h⟩ else registers i

theorem RestoreUserState_of_lt (u : UserRegisters) (registers : ℕ → BitVec 32) {i : ℕ}
    (h : i < NumTotalRegs) : RestoreUserState u registers i = u ⟨i,h⟩ := dif_pos h

end NachOS
