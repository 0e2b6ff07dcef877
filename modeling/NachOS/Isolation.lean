import NachOS.MipsRuns

/-! User programs that share main memory (machine/translate.cc, machine/mipssim.cc, and the
context switch of threads/scheduler.cc).  A program reaches the page frames of its own table
and no others, so that over any sequence of instructions, interrupts, answers of the kernel
and context switches it runs as it would alone. -/
namespace NachOS

open StateMachine hiding Machine
open Hardware Memory

namespace Translation

/-- The byte `p` is in a page frame that the table lets a program read, or write. -/
def Covers (t : Translation) (writing : Bool) (p : ℕ) : Prop :=
  ∃ x i q, t.physical x writing = .ok (i,q) ∧ q / PageSize = p / PageSize

theorem covers_of_physical {t t' : Translation} (h : t'.physical = t.physical) :
    t'.Covers = t.Covers := by
  funext writing p
  rw [Covers,h]
  rfl

/-- An aligned access stays in the frame of its first byte. -/
theorem physical_covers {t : Translation} {x : BitVec 32} {writing : Bool} {i p size : ℕ}
    (h : t.physical x writing = .ok (i,p)) (hsize : size = 1 ∨ size = 2 ∨ size = 4)
    (halign : ¬ (size = 4 ∧ x.toNat % 4 ≠ 0 ∨ size = 2 ∧ x.toNat % 2 ≠ 0)) {j : ℕ}
    (hj : p ≤ j) (hlt : j < p + size) : t.Covers writing j := by
  refine ⟨x,i,p,h,?_⟩
  obtain ⟨frame,_,rfl⟩ := physical_frame h
  simp only [PageSize] at hj hlt ⊢
  omega

end Translation

namespace Hardware
namespace Machine

/-- Two machines that a program cannot tell apart: they differ in page frames outside its
table only. -/
structure SameView (m m' : Machine) : Prop where
  registers : ∀ i < NumTotalRegs, m.registers i = m'.registers i
  translation : m.translation = m'.translation
  memory : ∀ p, m.translation.Covers false p → m.mainMemory p = m'.mainMemory p

/-- What a program can do to main memory. -/
structure Confined (m m' : Machine) : Prop where
  physical : m'.translation.physical = m.translation.physical
  memory : ∀ p, ¬ m.translation.Covers true p → m'.mainMemory p = m.mainMemory p

/-- Two outcomes of the processor that a program cannot tell apart. -/
inductive Alike {α : Type} (R : α → α → Prop) : Except Trap α → Except Trap α → Prop
  | ok {a b : α} : R a b → Alike R (.ok a) (.ok b)
  | exception (which : ExceptionType) {m m' : Machine} : SameView m m' →
      Alike R (.error (.exception which m)) (.error (.exception which m'))
  | divide : Alike R (.error .divide) (.error .divide)
  | fault (f : Fault) : Alike R (.error (.fault f)) (.error (.fault f))

/-- An outcome of the processor whose machine, if there is one, meets `P`. -/
def Ends {α : Type} (P : Machine → Prop) (machine : α → Machine) : Except Trap α → Prop
  | .ok a => P (machine a)
  | .error (.exception _ m) => P m
  | .error _ => True

theorem Alike.bind {α β : Type} {R : α → α → Prop} {S : β → β → Prop} {x y : Except Trap α}
    {f g : α → Except Trap β} (h : Alike R x y) (hf : ∀ a b, R a b → Alike S (f a) (g b)) :
    Alike S (x >>= f) (y >>= g) := by
  cases h with
  | ok h => exact hf _ _ h
  | exception which h => exact .exception which h
  | divide => exact .divide
  | fault f => exact .fault f

theorem Ends.bind {α β : Type} {P : Machine → Prop} {machine : α → Machine}
    {machine' : β → Machine} {x : Except Trap α} {f : α → Except Trap β} (h : Ends P machine x)
    (hf : ∀ a, P (machine a) → Ends P machine' (f a)) : Ends P machine' (x >>= f) := by
  cases x with
  | ok a => exact hf a h
  | error e =>
    cases e with
    | exception which m => exact h
    | divide => trivial
    | fault f => trivial

namespace SameView

variable {m m' : Machine}

theorem trans {m'' : Machine} (h : SameView m m') (h' : SameView m' m'') : SameView m m'' where
  registers i hi := (h.registers i hi).trans (h'.registers i hi)
  translation := h.translation.trans h'.translation
  memory p hp := (h.memory p hp).trans (h'.memory p (h.translation ▸ hp))

theorem setRegisters (h : SameView m m') {f g : ℕ → BitVec 32}
    (hfg : ∀ i < NumTotalRegs, f i = g i) :
    SameView { m with registers := f } { m' with registers := g } := ⟨hfg,h.translation,h.memory⟩

theorem touch (h : SameView m m') (i : ℕ) (writing : Bool) :
    SameView { m with translation := m.translation.touch i writing }
      { m' with translation := m'.translation.touch i writing } where
  registers := h.registers
  translation := congrArg (Translation.touch · i writing) h.translation
  memory p hp := by
    rw [Translation.covers_of_physical (Translation.physical_touch _ i writing)] at hp
    exact h.memory p hp

theorem store (h : SameView m m') (p size : ℕ) (value : ℤ) :
    SameView { m with mainMemory := Machine.store m.mainMemory p size value }
      { m' with mainMemory := Machine.store m'.mainMemory p size value } where
  registers := h.registers
  translation := h.translation
  memory j hj := by
    simp only [Machine.store]
    rw [h.memory j hj]

end SameView

theorem update_agree {f g : ℕ → BitVec 32} (h : ∀ i < NumTotalRegs, f i = g i) (n : ℕ)
    (v : BitVec 32) : ∀ i < NumTotalRegs, Function.update f n v i = Function.update g n v i := by
  intro i hi
  by_cases hn : i = n
  · subst hn
    simp
  · simp [Function.update_of_ne hn,h i hi]

theorem written_agree {f g : ℕ → BitVec 32} (h : ∀ i < NumTotalRegs, f i = g i)
    (ws : List (ℕ × BitVec 32)) : ∀ i < NumTotalRegs, written f ws i = written g ws i := by
  induction ws generalizing f g with
  | nil => exact h
  | cons w ws ih => exact ih (update_agree h w.1 w.2)

theorem loaded_agree {f g : ℕ → BitVec 32} (h : ∀ i < NumTotalRegs, f i = g i) (nextReg : ℕ)
    (nextValue : BitVec 32) :
    ∀ i < NumTotalRegs, loaded f nextReg nextValue i = loaded g nextReg nextValue i := by
  unfold loaded
  rw [h LoadReg (by decide),h LoadValueReg (by decide)]
  exact update_agree (update_agree (update_agree (update_agree h _ _) _ _) _ _) _ _

/-- An access is refused or goes to an address that depends on the table alone. -/
theorem access_outcomes (t : Translation) (addr : BitVec 32) (size : ℕ) (writing : Bool) :
    (∃ f, ∀ m : Machine, m.translation = t → m.access addr size writing = .error f) ∨
    (∃ e, ∀ m : Machine, m.translation = t → m.access addr size writing = .ok (.error e)) ∨
    ∃ i p, t.physical addr writing = .ok (i,p) ∧
      ¬ (size = 4 ∧ addr.toNat % 4 ≠ 0 ∨ size = 2 ∧ addr.toNat % 2 ≠ 0) ∧
      ∀ m : Machine, m.translation = t → m.access addr size writing =
        .ok (.ok (p,{ m with translation := m.translation.touch i writing })) := by
  simp only [access_eq]
  by_cases halign : size = 4 ∧ addr.toNat % 4 ≠ 0 ∨ size = 2 ∧ addr.toNat % 2 ≠ 0
  · exact Or.inr (Or.inl ⟨_,fun _ _ => if_pos halign⟩)
  by_cases hset : t.isSet = true
  · cases hp : t.physical addr writing with
    | error e =>
      refine Or.inr (Or.inl ⟨e,fun m hm => ?_⟩)
      rw [if_neg halign,hm,check_of hset,hp]
      rfl
    | ok r =>
      obtain ⟨i,p⟩ := r
      by_cases hlt : p + size ≤ MemorySize
      · refine Or.inr (Or.inr ⟨i,p,rfl,halign,fun m hm => ?_⟩)
        rw [if_neg halign,hm,check_of hset,hp]
        simp only [check_of hlt]
        rfl
      · refine Or.inl ⟨.assertion,fun m hm => ?_⟩
        rw [if_neg halign,hm,check_of hset,hp]
        simp only [check,if_neg hlt]
        rfl
  · refine Or.inl ⟨.assertion,fun m hm => ?_⟩
    rw [if_neg halign,hm,check,if_neg hset]
    rfl

section Views

variable {m m' : Machine} (h : SameView m m')
include h

theorem RaiseException_alike {α : Type} {R : α → α → Prop} (which : ExceptionType)
    (badVAddr : BitVec 32) :
    Alike R (m.RaiseException which badVAddr) (m'.RaiseException which badVAddr) := by
  have hload := h.registers LoadReg (by decide)
  by_cases hlt : (m.registers LoadReg).toNat < NumTotalRegs
  · rw [RaiseException_eq hlt,RaiseException_eq (hload ▸ hlt)]
    exact .exception which (h.setRegisters (loaded_agree (update_agree h.registers _ _) _ _))
  · have hundefined : ∀ n : Machine, n.registers LoadReg = m.registers LoadReg →
        (n.RaiseException which badVAddr : Except Trap α) = .error (.fault .undefined) := by
      intro n hn
      unfold RaiseException
      rw [setReg_of_lt n _ (show BadVAddrReg < NumTotalRegs by decide)]
      simp only [bind,Except.bind]
      rw [DelayedLoad_undefined]
      simp only [Function.update_of_ne (show LoadReg ≠ BadVAddrReg by decide),hn]
      exact hlt
    rw [hundefined m rfl,hundefined m' hload.symm]
    exact .fault .undefined

theorem readMem_alike (addr : BitVec 32) (size : ℕ) :
    Alike (fun r r' => r.1 = r'.1 ∧ SameView r.2 r'.2) (m.readMem addr size)
      (m'.readMem addr size) := by
  unfold readMem ReadMem
  rcases access_outcomes m.translation addr size false with
    ⟨f,hf⟩ | ⟨e,he⟩ | ⟨i,p,hp,halign,ht⟩
  · rw [hf m rfl,hf m' h.translation.symm]
    exact .fault f
  · rw [he m rfl,he m' h.translation.symm]
    exact RaiseException_alike h e addr
  · rw [ht m rfl,ht m' h.translation.symm]
    have hcovers : ∀ {j}, size = 1 ∨ size = 2 ∨ size = 4 → p ≤ j → j < p + size →
        m.mainMemory j = m'.mainMemory j :=
      fun hsize hj hlt => h.memory _ (Translation.physical_covers hp hsize halign hj hlt)
    simp only [bind,Except.bind]
    by_cases h₁ : size = 1
    · subst h₁
      simp only [if_true,hcovers (j := p) (by decide) (by omega) (by omega)]
      exact .ok ⟨rfl,h.touch i false⟩
    by_cases h₂ : size = 2
    · subst h₂
      simp only [if_true,hcovers (j := p) (by decide) (by omega) (by omega),
        hcovers (j := p + 1) (by decide) (by omega) (by omega)]
      exact .ok ⟨rfl,h.touch i false⟩
    by_cases h₄ : size = 4
    · subst h₄
      have hint : int m.mainMemory p = int m'.mainMemory p := by
        simp only [int,word,hcovers (j := p) (by decide) (by omega) (by omega),
          hcovers (j := p + 1) (by decide) (by omega) (by omega),
          hcovers (j := p + 2) (by decide) (by omega) (by omega),
          hcovers (j := p + 3) (by decide) (by omega) (by omega)]
      simp only [if_true,hint]
      exact .ok ⟨rfl,h.touch i false⟩
    · simp only [if_neg h₁,if_neg h₂,if_neg h₄]
      exact .fault .assertion

theorem writeMem_alike (addr : BitVec 32) (size : ℕ) (value : BitVec 32) :
    Alike SameView (m.writeMem addr size value) (m'.writeMem addr size value) := by
  unfold writeMem WriteMem
  rcases access_outcomes m.translation addr size true with
    ⟨f,hf⟩ | ⟨e,he⟩ | ⟨i,p,_,_,ht⟩
  · rw [hf m rfl,hf m' h.translation.symm]
    exact .fault f
  · rw [he m rfl,he m' h.translation.symm]
    exact RaiseException_alike h e addr
  · rw [ht m rfl,ht m' h.translation.symm]
    simp only [bind,Except.bind]
    by_cases hsize : size = 1 ∨ size = 2 ∨ size = 4
    · simp only [if_pos hsize]
      exact .ok ((h.touch i true).store p size _)
    · simp only [if_neg hsize]
      exact .fault .assertion

theorem finish_alike {nextLoadReg : ℕ} {nextLoadValue pcAfter : BitVec 32} :
    Alike SameView (finish ⟨m,nextLoadReg,nextLoadValue,pcAfter⟩)
      (finish ⟨m',nextLoadReg,nextLoadValue,pcAfter⟩) := by
  have hload := h.registers LoadReg (by decide)
  by_cases hlt : (m.registers LoadReg).toNat < NumTotalRegs
  · have hagree := loaded_agree h.registers nextLoadReg nextLoadValue
    rw [finish_eq hlt,finish_eq (hload ▸ hlt)]
    simp only [finished]
    rw [hagree PCReg (by decide),hagree NextPCReg (by decide)]
    exact .ok (h.setRegisters
      (update_agree (update_agree (update_agree hagree _ _) _ _) _ _))
  · unfold finish
    rw [DelayedLoad_undefined hlt,DelayedLoad_undefined (hload ▸ hlt)]
    exact .fault .undefined

theorem operands_eq {instr : Instruction} (hrs : instr.rs < 32) (hrt : instr.rt < 32) :
    m.operands instr = m'.operands instr := by
  have hreg : ∀ {i}, i < NumTotalRegs → m.registers i = m'.registers i := h.registers _
  simp only [operands,hreg (hrs.trans (by decide)),hreg (hrt.trans (by decide)),
    hreg (show HiReg < NumTotalRegs by decide),hreg (show LoReg < NumTotalRegs by decide),
    hreg (show NextPCReg < NumTotalRegs by decide),hreg (show LoadReg < NumTotalRegs by decide),
    hreg (show LoadValueReg < NumTotalRegs by decide)]

/-- The rest of an instruction, once its effect is known. -/
theorem apply_alike (rt : ℕ) (e : Effect) :
    Alike SameView (m.apply rt e >>= finish) (m'.apply rt e >>= finish) := by
  have hnext := h.registers NextPCReg (by decide)
  cases e with
  | write ws pcAfter => exact finish_alike (h.setRegisters (written_agree h.registers ws))
  | load addr size value =>
    simp only [apply,bind_assoc,hnext]
    refine (readMem_alike h addr size).bind fun r r' hr => ?_
    rw [hr.1]
    exact finish_alike hr.2
  | store addr size value =>
    simp only [apply,bind_assoc,hnext]
    exact (writeMem_alike h addr size value).bind fun n n' hn => finish_alike hn
  | modify addr value =>
    simp only [apply,bind_assoc,hnext]
    refine (readMem_alike h addr 4).bind fun r r' hr => ?_
    rw [hr.1]
    exact (writeMem_alike hr.2 addr 4 _).bind fun n n' hn => finish_alike hn
  | raise which =>
    simp only [apply,RaiseException_bind]
    exact RaiseException_alike h which 0#32
  | divide => exact .divide

end Views

/-- `OneInstruction` is the fetch, the effect and the delayed load. -/
theorem OneInstruction_eq (m : Machine) : m.OneInstruction =
    m.readMem (m.registers PCReg) 4 >>= fun r => r.2.apply (Instruction.Decode r.1).rt
      ((r.2.operands (.Decode r.1)).effect (.Decode r.1)) >>= finish := by
  cases hread : m.readMem (m.registers PCReg) 4 with
  | ok r => exact OneInstruction_fetched hread
  | error e =>
    unfold OneInstruction
    rw [reg_of_lt m (show PCReg < NumTotalRegs by decide)]
    simp only [bind,Except.bind,hread]

theorem OneInstruction_alike {m m' : Machine} (h : SameView m m') :
    Alike SameView m.OneInstruction m'.OneInstruction := by
  rw [OneInstruction_eq,OneInstruction_eq,h.registers PCReg (by decide)]
  refine (readMem_alike h _ 4).bind fun r r' hr => ?_
  obtain ⟨hrs,hrt,_⟩ := Instruction.decode_registers r'.1
  rw [hr.1,operands_eq hr.2 hrs hrt]
  exact apply_alike hr.2 _ _

/-! Main memory after an instruction. -/

namespace Confined

variable {m m' : Machine}

theorem refl (m : Machine) : Confined m m := ⟨rfl,fun _ _ => rfl⟩

theorem trans {m'' : Machine} (h : Confined m m') (h' : Confined m' m'') : Confined m m'' where
  physical := h'.physical.trans h.physical
  memory p hp := by
    rw [h'.memory p,h.memory p hp]
    rwa [Translation.covers_of_physical h.physical]

theorem of_eq (hmemory : m'.mainMemory = m.mainMemory)
    (hphysical : m'.translation.physical = m.translation.physical) : Confined m m' :=
  ⟨hphysical,fun _ _ => by rw [hmemory]⟩

end Confined

section Effects

variable {m₀ m : Machine} (h : Confined m₀ m)
include h

theorem RaiseException_ends {α : Type} {machine : α → Machine} (which : ExceptionType)
    (badVAddr : BitVec 32) :
    Ends (Confined m₀) machine (m.RaiseException which badVAddr) := by
  cases hraise : (m.RaiseException which badVAddr : Except Trap α) with
  | ok a =>
    obtain ⟨trap,htrap⟩ := m.RaiseException_error which badVAddr
    cases (htrap α).symm.trans hraise
  | error e =>
    cases e with
    | exception which' n =>
      obtain ⟨_,rfl⟩ := RaiseException_exception hraise
      exact h.trans (.of_eq rfl rfl)
    | divide => trivial
    | fault f => trivial

theorem readMem_ends (addr : BitVec 32) (size : ℕ) :
    Ends (Confined m₀) Prod.snd (m.readMem addr size) := by
  cases hread : m.readMem addr size with
  | ok r =>
    obtain ⟨_,hmemory,hphysical⟩ := readMem_frame hread
    exact h.trans (.of_eq hmemory hphysical)
  | error e =>
    rw [← hread]
    unfold readMem at hread ⊢
    split at hread
    · trivial
    · exact RaiseException_ends h _ _
    · cases hread

theorem writeMem_ends (addr : BitVec 32) (size : ℕ) (value : BitVec 32) :
    Ends (Confined m₀) id (m.writeMem addr size value) := by
  unfold writeMem WriteMem
  rcases access_outcomes m.translation addr size true with
    ⟨f,hf⟩ | ⟨e,he⟩ | ⟨i,p,hp,halign,ht⟩
  · rw [hf m rfl]
    trivial
  · rw [he m rfl]
    exact RaiseException_ends h e addr
  · rw [ht m rfl]
    simp only [bind,Except.bind]
    by_cases hsize : size = 1 ∨ size = 2 ∨ size = 4
    · simp only [if_pos hsize]
      refine h.trans ⟨Translation.physical_touch _ i true,fun j hj => if_neg fun hin => ?_⟩
      exact hj (Translation.physical_covers hp hsize halign hin.1 hin.2)
    · simp only [if_neg hsize]
      trivial

theorem finish_ends (nextLoadReg : ℕ) (nextLoadValue pcAfter : BitVec 32) :
    Ends (Confined m₀) id (finish ⟨m,nextLoadReg,nextLoadValue,pcAfter⟩) := by
  by_cases hlt : (m.registers LoadReg).toNat < NumTotalRegs
  · rw [finish_eq hlt]
    exact h.trans (.of_eq rfl rfl)
  · unfold finish
    rw [DelayedLoad_undefined hlt]
    trivial

theorem apply_ends (rt : ℕ) (e : Effect) : Ends (Confined m₀) id (m.apply rt e >>= finish) := by
  cases e with
  | write ws pcAfter =>
    exact finish_ends (m := { m with registers := written m.registers ws })
      (h.trans (.of_eq rfl rfl)) _ _ _
  | load addr size value =>
    simp only [apply,bind_assoc]
    exact (readMem_ends h addr size).bind fun r hr => finish_ends hr _ _ _
  | store addr size value =>
    simp only [apply,bind_assoc]
    exact (writeMem_ends h addr size value).bind fun n hn => finish_ends hn _ _ _
  | modify addr value =>
    simp only [apply,bind_assoc]
    exact (readMem_ends h addr 4).bind fun r hr =>
      (writeMem_ends hr addr 4 _).bind fun n hn => finish_ends hn _ _ _
  | raise which =>
    simp only [apply,RaiseException_bind]
    exact RaiseException_ends h which 0#32
  | divide => trivial

end Effects

theorem OneInstruction_ends (m : Machine) : Ends (Confined m) id m.OneInstruction := by
  rw [OneInstruction_eq]
  exact (readMem_ends (.refl m) _ 4).bind fun r hr => apply_ends hr _ _

/-! What happens to the machine while one program has it. -/

/-- `write` and `store` are what the kernel does for the program: it answers a system call in
the registers, and through `WriteMem` in the program's memory. -/
inductive Op
  | instruction
  | interrupt
  | write (num : ℕ) (value : BitVec 32)
  | store (addr : BitVec 32) (size : ℕ) (value : BitVec 32)

/-- An exception leaves the machine that its handler finds. -/
def settle : Except Trap Machine → Except Fault Machine
  | .ok m => .ok m
  | .error (.exception _ m) => .ok m
  | .error .divide => .error .halted
  | .error (.fault f) => .error f

def perform (m : Machine) : Op → Except Fault Machine
  | .instruction => settle m.OneInstruction
  | .interrupt => settle (m.DelayedLoad 0 0#32)
  | .write num value => m.WriteRegister num value
  | .store addr size value => settle (m.writeMem addr size value)

def alone : StateMachine.Machine Machine Op := ⟨fun _ => True,perform⟩

/-- Both fail alike, or they succeed with machines that a program cannot tell apart. -/
inductive Matches : Except Fault Machine → Except Fault Machine → Prop
  | ok {m m' : Machine} : SameView m m' → Matches (.ok m) (.ok m')
  | error (f : Fault) : Matches (.error f) (.error f)

theorem Alike.settle {x y : Except Trap Machine} (h : Alike SameView x y) :
    Matches (Machine.settle x) (Machine.settle y) := by
  cases h with
  | ok h => exact .ok h
  | exception which h => exact .ok h
  | divide => exact .error .halted
  | fault f => exact .error f

theorem Ends.settle {P : Machine → Prop} {x : Except Trap Machine} (h : Ends P id x) {n : Machine}
    (hx : settle x = .ok n) : P n := by
  cases x with
  | ok m =>
    cases hx
    exact h
  | error e =>
    cases e with
    | exception which m =>
      cases hx
      exact h
    | divide => cases hx
    | fault f => cases hx

variable {m m' n : Machine} {o : Op}

/-- Frames outside its table make no difference to a program. -/
theorem SameView.perform (h : SameView m m') (o : Op) :
    Matches (m.perform o) (m'.perform o) := by
  cases o with
  | instruction => exact (OneInstruction_alike h).settle
  | interrupt =>
    have hload := h.registers LoadReg (by decide)
    simp only [Machine.perform]
    by_cases hlt : (m.registers LoadReg).toNat < NumTotalRegs
    · rw [DelayedLoad_eq hlt,DelayedLoad_eq (hload ▸ hlt)]
      exact .ok (h.setRegisters (loaded_agree h.registers 0 0#32))
    · rw [DelayedLoad_undefined hlt,DelayedLoad_undefined (hload ▸ hlt)]
      exact .error .undefined
  | write num value =>
    simp only [Machine.perform,WriteRegister,check]
    split
    · exact .ok (h.setRegisters (update_agree h.registers num value))
    · exact .error .assertion
  | store addr size value => exact (writeMem_alike h addr size value).settle

theorem SameView.perform_ok (h : SameView m m') (ho : m.perform o = .ok n) :
    ∃ n', m'.perform o = .ok n' ∧ SameView n n' := by
  generalize hx : m.perform o = x,hy : m'.perform o = y,h.perform o = hmatches
  cases hmatches with
  | ok hn =>
    cases hx.symm.trans ho
    exact ⟨_,rfl,hn⟩
  | error f => cases hx.symm.trans ho

theorem SameView.perform_error (h : SameView m m') {f : Fault} :
    m.perform o = .error f ↔ m'.perform o = .error f := by
  generalize m.perform o = x,m'.perform o = y,h.perform o = hmatches
  cases hmatches with
  | ok => simp
  | error g => rfl

/-- A program does nothing to frames that its table does not let it write. -/
theorem Confined.of_perform (ho : m.perform o = .ok n) : Confined m n := by
  cases o with
  | instruction => exact (OneInstruction_ends m).settle ho
  | interrupt =>
    simp only [Machine.perform] at ho
    by_cases hlt : (m.registers LoadReg).toNat < NumTotalRegs
    · rw [DelayedLoad_eq hlt] at ho
      cases ho
      exact .of_eq rfl rfl
    · rw [DelayedLoad_undefined hlt] at ho
      cases ho
  | write num value =>
    obtain ⟨_,ho⟩ := check_bind_ok.mp ho
    cases ho
    exact .of_eq rfl rfl
  | store addr size value => exact (writeMem_ends (.refl m) addr size value).settle ho

end Machine

/-! Several programs. -/

/-- The machine, the thread that has it, and what the others have: the registers saved for
them and their page tables. -/
structure Programs (Thread : Type) where
  machine : Machine
  currentThread : Thread
  userRegisters : Thread → UserRegisters
  pageTable : Thread → Translation

/-- `run` is the context switch of `Scheduler::Run`. -/
inductive Turn (Thread : Type)
  | perform (o : Machine.Op)
  | run (nextThread : Thread)

namespace Programs

variable {Thread : Type} [DecidableEq Thread]

/-- `SaveUserState` for the old thread, `RestoreUserState` and `RestoreState` for the next.
The page table of the old thread is its own, with the bits that the machine set. -/
def switch (s : Programs Thread) (nextThread : Thread) : Programs Thread :=
  let userRegisters :=
    Function.update s.userRegisters s.currentThread (SaveUserState s.machine.registers)
  let pageTable := Function.update s.pageTable s.currentThread s.machine.translation
  { machine :=
      ⟨RestoreUserState (userRegisters nextThread) s.machine.registers,s.machine.mainMemory,
        pageTable nextThread⟩
    currentThread := nextThread
    userRegisters := userRegisters
    pageTable := pageTable }

def step (s : Programs Thread) : Turn Thread → Except Fault (Programs Thread)
  | .perform o => do
    let machine ← s.machine.perform o
    return { s with machine := machine }
  | .run nextThread => return s.switch nextThread

def machines (Thread : Type) [DecidableEq Thread] :
    StateMachine.Machine (Programs Thread) (Turn Thread) := ⟨fun _ => True,step⟩

/-- The machine as the thread `t` finds it when it runs. -/
def machineOf (s : Programs Thread) (t : Thread) : Machine :=
  if t = s.currentThread then s.machine
  else ⟨RestoreUserState (s.userRegisters t) s.machine.registers,s.machine.mainMemory,s.pageTable t⟩

/-- What was done while the thread `t` had the machine. -/
def own (t : Thread) : Thread → List (Turn Thread) → List Machine.Op
  | _,[] => []
  | c,.perform o :: turns => if t = c then o :: own t c turns else own t c turns
  | _,.run nextThread :: turns => own t nextThread turns

/-- No other program can write what `t` can read. -/
def Separate (s : Programs Thread) (t : Thread) : Prop :=
  ∀ u, u ≠ t → ∀ p, (s.machineOf u).translation.Covers true p →
    ¬ (s.machineOf t).translation.Covers false p

variable {s s' : Programs Thread} {t : Thread}

theorem machineOf_current (s : Programs Thread) : s.machineOf s.currentThread = s.machine :=
  if_pos rfl

/-- A context switch is not seen by any program. -/
theorem machineOf_switch (s : Programs Thread) (nextThread t : Thread) :
    Machine.SameView ((s.switch nextThread).machineOf t) (s.machineOf t) := by
  have hregisters : ∀ (u : UserRegisters) (f g : ℕ → BitVec 32), ∀ i < NumTotalRegs,
      RestoreUserState u f i = RestoreUserState u g i := by
    intro u f g i hi
    rw [RestoreUserState_of_lt u f hi,RestoreUserState_of_lt u g hi]
  have hswitched : (s.switch nextThread).machineOf t =
      ⟨RestoreUserState ((s.switch nextThread).userRegisters t)
        (if t = nextThread then s.machine.registers else (s.switch nextThread).machine.registers),
        s.machine.mainMemory,(s.switch nextThread).pageTable t⟩ := by
    unfold machineOf
    by_cases hnext : t = nextThread
    · subst hnext
      simp [switch]
    · simp [switch,hnext]
  rw [hswitched]
  by_cases hcurrent : t = s.currentThread
  · subst hcurrent
    rw [machineOf_current]
    refine ⟨fun i hi => ?_,?_,fun _ _ => rfl⟩
    · simp only [RestoreUserState_of_lt _ _ hi,switch,Function.update_self,SaveUserState]
    · simp only [switch,Function.update_self]
  · rw [machineOf,if_neg hcurrent]
    refine ⟨fun i hi => ?_,?_,fun _ _ => rfl⟩
    · simp only [switch,Function.update_of_ne hcurrent]
      exact hregisters _ _ _ i hi
    · simp only [switch,Function.update_of_ne hcurrent]

/-- A step changes the mapping of no program. -/
theorem physical_step {a : Turn Thread} (h : s.step a = .ok s') (t : Thread) :
    (s'.machineOf t).translation.physical = (s.machineOf t).translation.physical := by
  cases a with
  | perform o =>
    obtain ⟨n,ho,h⟩ := bind_ok.mp h
    cases h
    unfold machineOf
    by_cases hcurrent : t = s.currentThread
    · simp only [if_pos hcurrent]
      exact (Machine.Confined.of_perform ho).physical
    · simp only [if_neg hcurrent]
  | run nextThread =>
    cases h
    rw [(s.machineOf_switch nextThread t).translation]

theorem covers_step {a : Turn Thread} (h : s.step a = .ok s') (t : Thread) :
    (s'.machineOf t).translation.Covers = (s.machineOf t).translation.Covers :=
  Translation.covers_of_physical (physical_step h t)

/-- What another program does is not seen. -/
theorem machineOf_perform {o : Machine.Op} {n : Machine} (hsep : s.Separate t)
    (hne : t ≠ s.currentThread) (ho : s.machine.perform o = .ok n) :
    Machine.SameView (Programs.machineOf { s with machine := n } t) (s.machineOf t) := by
  have hconfined := Machine.Confined.of_perform ho
  have hmemory : ∀ p, (s.machineOf t).translation.Covers false p →
      n.mainMemory p = s.machine.mainMemory p := by
    intro p hp
    refine hconfined.memory p fun hw => hsep s.currentThread hne.symm p ?_ hp
    rwa [machineOf_current]
  unfold machineOf at hmemory ⊢
  simp only [if_neg hne] at hmemory ⊢
  exact ⟨fun i hi => by simp only [RestoreUserState_of_lt _ _ hi],rfl,hmemory⟩

theorem run_alike {m : Machine} (hsep : s.Separate t)
    (hm : Machine.SameView (s.machineOf t) m) {turns : List (Turn Thread)}
    (h : (machines Thread).run s turns = .ok s') :
    (∃ m', Machine.alone.run m (own t s.currentThread turns) = .ok m' ∧
      Machine.SameView (s'.machineOf t) m') ∧
    ∀ p, (∀ u, ¬ (s.machineOf u).translation.Covers true p) →
      s'.machine.mainMemory p = s.machine.mainMemory p := by
  induction turns generalizing s m with
  | nil =>
    cases h
    exact ⟨⟨m,rfl,hm⟩,fun _ _ => rfl⟩
  | cons a turns ih =>
    obtain ⟨s₁,h₁,h⟩ := (machines Thread).run_cons_ok.mp h
    have hcovers := covers_step h₁
    have hsep₁ : s₁.Separate t := by
      intro u hu p
      rw [hcovers u,hcovers t]
      exact hsep u hu p
    have hbytes : ∀ p, (∀ u, ¬ (s.machineOf u).translation.Covers true p) →
        s₁.machine.mainMemory p = s.machine.mainMemory p := by
      intro p hp
      cases a with
      | perform o =>
        obtain ⟨n,ho,h₁⟩ := bind_ok.mp h₁
        cases h₁
        have hown := hp s.currentThread
        rw [machineOf_current] at hown
        exact (Machine.Confined.of_perform ho).memory p hown
      | run nextThread =>
        cases h₁
        rfl
    have hrest : ∀ {m₁ : Machine}, Machine.SameView (s₁.machineOf t) m₁ →
        (∃ m', Machine.alone.run m₁ (own t s₁.currentThread turns) = .ok m' ∧
          Machine.SameView (s'.machineOf t) m') ∧
        ∀ p, (∀ u, ¬ (s.machineOf u).translation.Covers true p) →
          s'.machine.mainMemory p = s.machine.mainMemory p := by
      intro m₁ hm₁
      obtain ⟨halone,hkept⟩ := ih hsep₁ hm₁ h
      refine ⟨halone,fun p hp => (hkept p fun u => ?_).trans (hbytes p hp)⟩
      rw [hcovers u]
      exact hp u
    cases a with
    | perform o =>
      obtain ⟨n,ho,h₁⟩ := bind_ok.mp h₁
      cases h₁
      by_cases hcurrent : t = s.currentThread
      · -- the program's own step: it is taken alone as well
        subst hcurrent
        rw [machineOf_current] at hm
        obtain ⟨n',ho',hn⟩ := hm.perform_ok ho
        have hview : Machine.SameView (Programs.machineOf { s with machine := n } s.currentThread)
            n' := by
          rw [machineOf,if_pos rfl]
          exact hn
        obtain ⟨⟨m',hrun,hend⟩,hkept⟩ := hrest hview
        refine ⟨⟨m',?_,hend⟩,hkept⟩
        rw [own,if_pos rfl]
        exact Machine.alone.run_cons_ok.mpr ⟨n',ho',hrun⟩
      · rw [own,if_neg hcurrent]
        exact hrest ((machineOf_perform hsep hcurrent ho).trans hm)
    | run nextThread =>
      cases h₁
      exact hrest ((s.machineOf_switch nextThread t).trans hm)

/-- Programs whose page frames are their own run as they would alone, whatever the order in
which they get the machine: after any run, the program that has the machine fails with its next
step just if it would fail alone.  No byte that no program may write is changed. -/
theorem programs_isolated {m : Machine} (hsep : s.Separate t)
    (hm : Machine.SameView (s.machineOf t) m) {turns : List (Turn Thread)}
    (h : (machines Thread).run s turns = .ok s') :
    (∃ m', Machine.alone.run m (own t s.currentThread turns) = .ok m' ∧
      Machine.SameView (s'.machineOf t) m' ∧
      (t = s'.currentThread → ∀ o f,
        (machines Thread).step s' (.perform o) = .error f ↔ Machine.alone.step m' o = .error f)) ∧
    ∀ p, (∀ u, ¬ (s.machineOf u).translation.Covers true p) →
      s'.machine.mainMemory p = s.machine.mainMemory p := by
  obtain ⟨⟨m',hrun,hview⟩,hbytes⟩ := run_alike hsep hm h
  refine ⟨⟨m',hrun,hview,?_⟩,hbytes⟩
  rintro rfl o f
  rw [machineOf_current] at hview
  refine Iff.trans ?_ hview.perform_error
  change (s'.machine.perform o >>= _) = .error f ↔ _
  cases s'.machine.perform o <;> simp [bind,Except.bind,pure,Except.pure]

/-! Page tables. -/

/-- The frames of a page table whose pages are all valid and writable. -/
theorem covers_pageTable {e : ℕ → TranslationEntry} {size : ℕ} (hsize : size ≤ 2 ^ 25)
    (hvalid : ∀ i < size, (e i).valid = true ∧ (e i).readOnly = false) (writing : Bool) (p : ℕ) :
    (Translation.pageTable e size).Covers writing p ↔
      ∃ i < size, (e i).physicalPage.toNat = p / PageSize ∧ p / PageSize < NumPhysPages := by
  constructor
  · rintro ⟨x,i,q,hphysical,hq⟩
    obtain ⟨j,hindex,h⟩ := bind_ok.mp hphysical
    simp only at h
    split at h
    · cases h
    split at h
    · cases h
    next hframe =>
    cases h
    obtain ⟨hlt,rfl⟩ : x.toNat / PageSize < size ∧ x.toNat / PageSize = i := by
      simp only [Translation.index] at hindex
      split at hindex
      · cases hindex
      · next hlt =>
        rw [if_neg (by rw [(hvalid _ (by omega)).1]; simp)] at hindex
        cases hindex
        exact ⟨Nat.lt_of_not_le hlt,rfl⟩
    refine ⟨_,hlt,?_,?_⟩
    · simp only [PageSize,Translation.entries] at hq ⊢
      omega
    · simp only [PageSize,NumPhysPages,Translation.entries] at hq hframe ⊢
      omega
  · rintro ⟨i,hi,hframe,hlt⟩
    have hx : (BitVec.ofNat 32 (i * PageSize)).toNat = i * PageSize := by
      simp only [BitVec.toNat_ofNat,PageSize]
      omega
    refine ⟨BitVec.ofNat 32 (i * PageSize),i,(e i).physicalPage.toNat * PageSize,
      bind_ok.mpr ⟨i,?_,?_⟩,?_⟩
    · simp only [Translation.index,hx,Nat.mul_div_cancel i (show 0 < PageSize by decide)]
      rw [if_neg (by omega),if_neg (by rw [(hvalid i hi).1]; simp)]
    · simp only [Translation.entries,(hvalid i hi).2,hx,Nat.mul_mod_left,Nat.add_zero]
      rw [if_neg (by simp),if_neg (by omega)]
      rfl
    · rw [Nat.mul_div_cancel _ (show 0 < PageSize by decide),hframe]

/-- The constructor of `AddrSpace` gives every program the frames from 0 on, so that the
programs of two address spaces are not separate. -/
theorem not_separate_addrSpace {m : Machine} {n n' : ℕ} {u : Thread} (hne : u ≠ t) (hn : 0 < n)
    (hn' : 0 < n') (hle : n ≤ 2 ^ 25) (hle' : n' ≤ 2 ^ 25)
    (ht : (s.machineOf t).translation = ((AddrSpace.new m n).1.RestoreState m).translation)
    (hu : (s.machineOf u).translation = ((AddrSpace.new m n').1.RestoreState m).translation) :
    ¬ s.Separate t := by
  intro hsep
  have hzero : ∀ {k : ℕ} (writing : Bool), 0 < k → k ≤ 2 ^ 25 →
      ((AddrSpace.new m k).1.RestoreState m).translation.Covers writing 0 := by
    intro k writing hk hle
    exact (covers_pageTable hle (fun _ _ => ⟨rfl,rfl⟩) writing 0).mpr ⟨0,hk,rfl,by decide⟩
  refine hsep u hne 0 ?_ ?_
  · rw [hu]
    exact hzero true hn' hle'
  · rw [ht]
    exact hzero false hn hle

/-- Two programs of one page, `true` in frame 1 and `false` in frame 0.  The instruction of
each stores its register 2 at address 8. -/
def twoPrograms : Programs Bool where
  machine :=
    ⟨fun i => if i = 2 then 5#32 else if i = NextPCReg then 4#32 else 0#32,
      fun p => [8#8,0#8,2#8,0xac#8].getD (p % PageSize) 0#8,
      .pageTable (fun _ => ⟨0,0,true,false,false,false⟩) 1⟩
  currentThread := false
  userRegisters := fun _ i => if i = 2 then 7#32 else if i = NextPCReg then 4#32 else 0#32
  pageTable := fun _ => .pageTable (fun _ => ⟨0,1,true,false,false,false⟩) 1

theorem separate_twoPrograms : twoPrograms.Separate false := by
  intro u hu p hw hr
  cases u with
  | false => exact hu rfl
  | true =>
    obtain ⟨_,_,hone,_⟩ := (covers_pageTable (by decide) (by simp) true p).mp hw
    obtain ⟨_,_,hzero,_⟩ := (covers_pageTable (by decide) (by simp) false p).mp hr
    exact absurd (hzero.trans hone.symm) (by decide)

theorem programs_isolated_store : ∃ s' m',
    (machines Bool).run twoPrograms [.perform .instruction,.run true,.perform .instruction] =
      .ok s' ∧
    Machine.alone.run twoPrograms.machine [.instruction] = .ok m' ∧
    Machine.SameView (s'.machineOf false) m' ∧
    s'.machine.mainMemory 8 = 5#8 ∧ s'.machine.mainMemory 136 = 7#8 := by
  have hrun : ∃ s', (machines Bool).run twoPrograms
      [.perform .instruction,.run true,.perform .instruction] = .ok s' ∧
      s'.machine.mainMemory 8 = 5#8 ∧ s'.machine.mainMemory 136 = 7#8 := ⟨_,rfl,by decide,by decide⟩
  obtain ⟨s',hs',h₈,h₁₃₆⟩ := hrun
  obtain ⟨⟨m',hm',hview,_⟩,_⟩ := programs_isolated separate_twoPrograms
    ⟨fun _ _ => rfl,rfl,fun _ _ => rfl⟩ hs'
  exact ⟨s',m',hs',hm',hview,h₈,h₁₃₆⟩

end Programs
end Hardware
end NachOS
