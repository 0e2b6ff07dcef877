import NachOS.StateMachine

/-! A part of the 32-bit x86: moves between registers and memory, the stack, indirect calls and
returns.  Memory is a map of aligned words; an access that is not aligned is left undefined. -/
namespace NachOS
namespace X86

open StateMachine hiding Machine

inductive Reg
  | eax | ebx | ecx | edx | esi | edi | ebp | esp
  deriving DecidableEq, Repr

/-- `mem k r` is `k(%r)`, and `abs x` the word at a fixed address. -/
inductive Operand
  | reg (r : Reg)
  | mem (offset : BitVec 32) (base : Reg)
  | abs (addr : BitVec 32)
  deriving DecidableEq, Repr

/-- `call r back` is an indirect call whose next instruction is at `back`. -/
inductive Instr
  | movl (src dst : Operand)
  | pushl (src : Operand)
  | popl (dst : Operand)
  | call (target : Reg) (back : BitVec 32)
  | ret
  deriving DecidableEq, Repr

structure State where
  reg : Reg → BitVec 32
  mem : BitVec 32 → BitVec 32
  eip : BitVec 32

def Aligned (x : BitVec 32) : Prop := x.toNat % 4 = 0

instance (x : BitVec 32) : Decidable (Aligned x) := inferInstanceAs (Decidable (_ = _))

namespace State

def load (s : State) (x : BitVec 32) : Except Fault (BitVec 32) := do
  inBounds (Aligned x)
  return s.mem x

def setMem (s : State) (x value : BitVec 32) : State :=
  { s with mem := Function.update s.mem x value }

def store (s : State) (x value : BitVec 32) : Except Fault State := do
  inBounds (Aligned x)
  return s.setMem x value

def setReg (s : State) (r : Reg) (value : BitVec 32) : State :=
  { s with reg := Function.update s.reg r value }

def get (s : State) : Operand → Except Fault (BitVec 32)
  | .reg r => .ok (s.reg r)
  | .mem offset base => s.load (s.reg base + offset)
  | .abs addr => s.load addr

def set (s : State) (value : BitVec 32) : Operand → Except Fault State
  | .reg r => .ok (s.setReg r value)
  | .mem offset base => s.store (s.reg base + offset) value
  | .abs addr => s.store addr value

def push (s : State) (value : BitVec 32) : Except Fault State :=
  (s.setReg .esp (s.reg .esp - 4#32)).store (s.reg .esp - 4#32) value

def pop (s : State) : Except Fault (BitVec 32 × State) := do
  let value ← s.load (s.reg .esp)
  return (value,s.setReg .esp (s.reg .esp + 4#32))

/-- One instruction that is no call. -/
def step (s : State) : Instr → Except Fault State
  | .movl src dst => do s.set (← s.get src) dst
  | .pushl src => do s.push (← s.get src)
  | .popl dst => do
    let (value,s) ← s.pop
    s.set value dst
  | .ret => do
    let (value,s) ← s.pop
    return { s with eip := value }
  | .call _ _ => .error .blocked

/-- The code of a function up to its return, with `callee` for what its calls do from their
entry to their return.  The states in which the called functions were entered are listed. -/
def run (callee : State → Except Fault State) (s : State) :
    List Instr → List State × Except Fault State
  | [] => ([],.ok s)
  | .call target back :: code =>
    match s.push back with
    | .error f => ([],.error f)
    | .ok s =>
      let entry := { s with eip := s.reg target }
      match callee entry with
      | .error f => ([entry],.error f)
      | .ok s =>
        let r := run callee s code
        (entry :: r.1,r.2)
  | .ret :: _ => ([],s.step .ret)
  | i :: code =>
    match s.step i with
    | .error f => ([],.error f)
    | .ok s => run callee s code

/-! Symbolic execution. -/

variable {callee : State → Except Fault State} {s : State} {code : List Instr} {r base : Reg}
  {offset addr value : BitVec 32}

@[simp] theorem setReg_mem : (s.setReg r value).mem = s.mem := by
  rw [setReg]

@[simp] theorem setReg_reg : (s.setReg r value).reg = Function.update s.reg r value := by
  rw [setReg]

@[simp] theorem setMem_mem : (s.setMem addr value).mem = Function.update s.mem addr value := by
  rw [setMem]

@[simp] theorem setMem_reg : (s.setMem addr value).reg = s.reg := by
  rw [setMem]

theorem load_of (h : Aligned addr) : s.load addr = .ok (s.mem addr) := by
  simp [load,inBounds_of h,bind,Except.bind,pure,Except.pure]

theorem store_of (h : Aligned addr) : s.store addr value = .ok (s.setMem addr value) := by
  simp [store,inBounds_of h,bind,Except.bind,pure,Except.pure]

theorem push_of (h : Aligned (s.reg .esp - 4#32)) :
    s.push value = .ok ((s.setReg .esp (s.reg .esp - 4#32)).setMem (s.reg .esp - 4#32) value) :=
  store_of h

theorem run_move {r' : Reg} : s.run callee (.movl (.reg r') (.reg r) :: code) =
    (s.setReg r (s.reg r')).run callee code := rfl

theorem run_load (h : Aligned (s.reg base + offset)) :
    s.run callee (.movl (.mem offset base) (.reg r) :: code) =
      (s.setReg r (s.mem (s.reg base + offset))).run callee code := by
  simp only [run,step,get,load_of h]
  rfl

theorem run_store (h : Aligned (s.reg base + offset)) :
    s.run callee (.movl (.reg r) (.mem offset base) :: code) =
      (s.setMem (s.reg base + offset) (s.reg r)).run callee code := by
  simp only [run,step,get,set,bind,Except.bind,store_of h]

theorem run_loadAbs (h : Aligned addr) :
    s.run callee (.movl (.abs addr) (.reg r) :: code) =
      (s.setReg r (s.mem addr)).run callee code := by
  simp only [run,step,get,load_of h]
  rfl

theorem run_storeAbs (h : Aligned addr) :
    s.run callee (.movl (.reg r) (.abs addr) :: code) =
      (s.setMem addr (s.reg r)).run callee code := by
  simp only [run,step,get,set,bind,Except.bind,store_of h]

theorem run_push (h : Aligned (s.reg .esp - 4#32)) :
    s.run callee (.pushl (.reg r) :: code) =
      ((s.setReg .esp (s.reg .esp - 4#32)).setMem (s.reg .esp - 4#32) (s.reg r)).run callee code := by
  simp only [run,step,get,bind,Except.bind,push_of h]

theorem run_ret (h : Aligned (s.reg .esp)) :
    s.run callee (.ret :: code) =
      ([],.ok { s.setReg .esp (s.reg .esp + 4#32) with eip := s.mem (s.reg .esp) }) := by
  simp only [run,step,pop,load_of h]
  rfl

theorem run_call {back : BitVec 32} (callee : State → Except Fault State) (code : List Instr)
    (h : Aligned (s.reg .esp - 4#32)) {entry : State}
    (hentry : entry = { (s.setReg .esp (s.reg .esp - 4#32)).setMem (s.reg .esp - 4#32) back with
      eip := ((s.setReg .esp (s.reg .esp - 4#32)).reg r) }) :
    s.run callee (.call r back :: code) =
      match callee entry with
      | .error f => ([entry],.error f)
      | .ok s => (entry :: (s.run callee code).1,(s.run callee code).2) := by
  subst hentry
  simp only [run,push_of h,setMem_reg]

end State

/-- The calling convention of C: a function that takes `n` words of arguments returns to its
caller with the stack pointer and the registers ebx, esi, edi and ebp as they were.  The words
of its caller between the arguments and `top` are left alone. -/
structure Returns (n : ℕ) (top : ℕ) (entry s : State) : Prop where
  eip : s.eip = entry.mem (entry.reg .esp)
  esp : s.reg .esp = entry.reg .esp + 4#32
  saved : ∀ r, r = .ebx ∨ r = .esi ∨ r = .edi ∨ r = .ebp → s.reg r = entry.reg r
  frame : ∀ x : BitVec 32, (entry.reg .esp).toNat + 4 + 4 * n ≤ x.toNat → x.toNat < top →
    s.mem x = entry.mem x

/-- A call of a function that returns. -/
theorem State.run_call_returns {callee : State → Except Fault State} {s : State} {r : Reg}
    {n top : ℕ} (back : BitVec 32) (code : List Instr)
    (haligned : Aligned (s.reg .esp - 4#32)) (hr : r ≠ .esp)
    (hreturns : ∀ e, e.eip = s.reg r → ∃ e', callee e = .ok e' ∧ Returns n top e e') :
    ∃ e s' : State, s.run callee (.call r back :: code) =
        (e :: (s'.run callee code).1,(s'.run callee code).2) ∧
      e.eip = s.reg r ∧ e.reg .esp = s.reg .esp - 4#32 ∧
      e.mem = Function.update s.mem (s.reg .esp - 4#32) back ∧
      s'.reg .esp = s.reg .esp ∧
      (∀ r, r = .ebx ∨ r = .esi ∨ r = .edi ∨ r = .ebp → s'.reg r = s.reg r) ∧
      ∀ x : BitVec 32, (s.reg .esp - 4#32).toNat + 4 + 4 * n ≤ x.toNat → x.toNat < top →
        s'.mem x = e.mem x := by
  obtain ⟨e,he⟩ : ∃ e : State, e = { (s.setReg .esp (s.reg .esp - 4#32)).setMem
      (s.reg .esp - 4#32) back with eip := (s.setReg .esp (s.reg .esp - 4#32)).reg r } := ⟨_,rfl⟩
  have heip : e.eip = s.reg r := by
    rw [he]
    simp [hr]
  have hregs : e.reg = Function.update s.reg .esp (s.reg .esp - 4#32) := by
    rw [he]
    rfl
  have hmem : e.mem = Function.update s.mem (s.reg .esp - 4#32) back := by
    rw [he]
    rfl
  have hesp : e.reg .esp = s.reg .esp - 4#32 := by
    rw [hregs,Function.update_self]
  obtain ⟨s',hcall,hret⟩ := hreturns e heip
  refine ⟨e,s',?_,heip,hesp,hmem,?_,fun r hsaved => ?_,fun x hx htop => ?_⟩
  · rw [run_call callee code haligned he,hcall]
  · rw [hret.esp,hesp,BitVec.sub_add_cancel]
  · rw [hret.saved r hsaved,hregs,Function.update_of_ne]
    rcases hsaved with rfl | rfl | rfl | rfl <;> decide
  · exact hret.frame x (hesp ▸ hx) htop

end X86
end NachOS
