import NachOS.Memory

/-! The simulated hardware as the kernel sees it (machine/machine.cc,
machine/translate.cc): registers, main memory and address translation. -/
namespace NachOS

open StateMachine hiding Machine
open Memory

abbrev PageSize : ℕ := 128
abbrev NumPhysPages : ℕ := 128
abbrev MemorySize : ℕ := NumPhysPages * PageSize
abbrev TLBSize : ℕ := 4

abbrev PCReg : ℕ := 34
abbrev NextPCReg : ℕ := 35
abbrev PrevPCReg : ℕ := 36
abbrev NumTotalRegs : ℕ := 40

inductive ExceptionType
  | noException | syscallException | pageFaultException | readOnlyException
  | busErrorException | addressErrorException | overflowException | illegalInstrException
  | numExceptionTypes
  deriving DecidableEq, Repr

structure TranslationEntry where
  virtualPage : BitVec 32
  physicalPage : BitVec 32
  valid : Bool
  readOnly : Bool
  use : Bool
  dirty : Bool

/-- Which of the pointers `pageTable` and `tlb` is set. -/
inductive Translation
  | unset
  | pageTable (entries : ℕ → TranslationEntry) (pageTableSize : ℕ)
  | tlb (entries : ℕ → TranslationEntry)

namespace Hardware

structure Machine where
  registers : ℕ → BitVec 32
  mainMemory : Buffer
  translation : Translation

namespace Machine

def ReadRegister (m : Machine) (num : ℕ) : Except Fault (BitVec 32) := do
  check (num < NumTotalRegs)
  return m.registers num

def WriteRegister (m : Machine) (num : ℕ) (value : BitVec 32) : Except Fault Machine := do
  check (num < NumTotalRegs)
  return { m with registers := Function.update m.registers num value }

/-- The loop over TLB entries `i` to `i + n - 1`. -/
def findTlb (entries : ℕ → TranslationEntry) (vpn i : ℕ) : ℕ → Option ℕ
  | 0 => none
  | n + 1 =>
    if (entries i).valid = true ∧ (entries i).virtualPage.toInt = vpn then some i
    else findTlb entries vpn (i + 1) n

end Machine
end Hardware

open Hardware

namespace Translation

def entries : Translation → ℕ → TranslationEntry
  | .unset => fun _ => ⟨0,0,false,false,false,false⟩
  | .pageTable e _ => e
  | .tlb e => e

/-- The index of the entry for a virtual page. -/
def index (t : Translation) (vpn : ℕ) : Except ExceptionType ℕ :=
  match t with
  | .unset => .error .pageFaultException
  | .pageTable e pageTableSize =>
    if vpn ≥ pageTableSize then .error .addressErrorException
    else if (e vpn).valid = false then .error .pageFaultException
    else .ok vpn
  | .tlb e =>
    match Machine.findTlb e vpn 0 TLBSize with
    | none => .error .pageFaultException
    | some i => .ok i

def isSet : Translation → Bool
  | .unset => false
  | _ => true

def setEntry (t : Translation) (i : ℕ) (entry : TranslationEntry) : Translation :=
  match t with
  | .unset => .unset
  | .pageTable e size => .pageTable (Function.update e i entry) size
  | .tlb e => .tlb (Function.update e i entry)

/-- The physical address of a virtual one, with the index of the entry used. -/
def physical (t : Translation) (virtAddr : BitVec 32) (writing : Bool) :
    Except ExceptionType (ℕ × ℕ) := do
  let i ← t.index (virtAddr.toNat / PageSize)
  let entry := t.entries i
  if entry.readOnly = true ∧ writing = true then .error .readOnlyException
  else
    let pageFrame := entry.physicalPage.toNat
    if pageFrame ≥ NumPhysPages then .error .busErrorException
    else return (i,pageFrame * PageSize + virtAddr.toNat % PageSize)

/-- The use and dirty bits that an access sets. -/
def touch (t : Translation) (i : ℕ) (writing : Bool) : Translation :=
  let entry := t.entries i
  t.setEntry i { entry with use := true,dirty := entry.dirty || writing }

theorem findTlb_congr {e e' : ℕ → TranslationEntry} (hvalid : ∀ i, (e' i).valid = (e i).valid)
    (hpage : ∀ i, (e' i).virtualPage = (e i).virtualPage) (vpn i n : ℕ) :
    Machine.findTlb e' vpn i n = Machine.findTlb e vpn i n := by
  induction n generalizing i with
  | zero => rfl
  | succ n ih => simp only [Machine.findTlb,hvalid,hpage,ih]

/-- The use and dirty bits are no part of the mapping. -/
theorem entries_touch (t : Translation) (i j : ℕ) (writing : Bool) :
    ((t.touch i writing).entries j).valid = (t.entries j).valid ∧
    ((t.touch i writing).entries j).virtualPage = (t.entries j).virtualPage ∧
    ((t.touch i writing).entries j).physicalPage = (t.entries j).physicalPage ∧
    ((t.touch i writing).entries j).readOnly = (t.entries j).readOnly := by
  cases t with
  | unset => exact ⟨rfl,rfl,rfl,rfl⟩
  | pageTable e size =>
    by_cases hj : j = i
    · subst hj
      simp [touch,setEntry,entries]
    · simp [touch,setEntry,entries,Function.update_of_ne hj]
  | tlb e =>
    by_cases hj : j = i
    · subst hj
      simp [touch,setEntry,entries]
    · simp [touch,setEntry,entries,Function.update_of_ne hj]

theorem index_touch (t : Translation) (i vpn : ℕ) (writing : Bool) :
    (t.touch i writing).index vpn = t.index vpn := by
  have he := fun j => entries_touch t i j writing
  cases t with
  | unset => rfl
  | pageTable e size =>
    have hvalid := (he vpn).1
    simp only [touch,setEntry,entries] at hvalid ⊢
    simp only [index,hvalid]
  | tlb e =>
    have hfind := findTlb_congr (fun j => (he j).1) (fun j => (he j).2.1) vpn 0 TLBSize
    simp only [touch,setEntry,entries] at hfind ⊢
    simp only [index,hfind]

@[simp] theorem physical_touch (t : Translation) (i : ℕ) (writing : Bool) :
    (t.touch i writing).physical = t.physical := by
  funext x w
  have he := fun j => entries_touch t i j writing
  simp only [physical,index_touch,(he _).2.2.1,(he _).2.2.2]

theorem isSet_touch (t : Translation) (i : ℕ) (writing : Bool) :
    (t.touch i writing).isSet = t.isSet := by
  cases t <;> rfl

theorem physical_frame {t : Translation} {x : BitVec 32} {writing : Bool} {i p : ℕ}
    (h : t.physical x writing = .ok (i,p)) :
    ∃ pageFrame < NumPhysPages, p = pageFrame * PageSize + x.toNat % PageSize := by
  obtain ⟨j,_,h⟩ := bind_ok.mp h
  simp only at h
  split at h
  · cases h
  · split at h
    · cases h
    · next hframe =>
      cases h
      exact ⟨_,Nat.lt_of_not_le hframe,rfl⟩

theorem index_error_ne {t : Translation} {vpn : ℕ} {e : ExceptionType}
    (h : t.index vpn = .error e) : e ≠ .noException := by
  rintro rfl
  cases t with
  | unset => cases h
  | pageTable entries size =>
    simp only [index] at h
    split_ifs at h <;> cases h
  | tlb entries =>
    simp only [index] at h
    split at h <;> cases h

theorem physical_error_ne {t : Translation} {x : BitVec 32} {writing : Bool} {e : ExceptionType}
    (h : t.physical x writing = .error e) : e ≠ .noException := by
  unfold physical at h
  cases hindex : t.index (x.toNat / PageSize) with
  | error e' =>
    rw [hindex] at h
    cases h
    exact index_error_ne hindex
  | ok i =>
    simp only [hindex,bind,Except.bind] at h
    rintro rfl
    split_ifs at h <;> cases h

end Translation

namespace Hardware.Machine

/-- The exception, with `*physAddr` and the machine after the call. -/
def Translate (m : Machine) (physAddr : ℕ) (virtAddr : BitVec 32) (size : ℕ) (writing : Bool) :
    Except Fault (ExceptionType × ℕ × Machine) :=
  if size = 4 ∧ virtAddr.toNat % 4 ≠ 0 ∨ size = 2 ∧ virtAddr.toNat % 2 ≠ 0 then
    return (.addressErrorException,physAddr,m)
  else do
    check (m.translation.isSet = true)
    match m.translation.physical virtAddr writing with
    | .error e => return (e,physAddr,m)
    | .ok (i,physAddr) =>
      check (physAddr + size ≤ MemorySize)
      return (.noException,physAddr,{ m with translation := m.translation.touch i writing })

/-- The call of a caller that reads `*physAddr` only if there is no exception. -/
def access (m : Machine) (virtAddr : BitVec 32) (size : ℕ) (writing : Bool) :
    Except Fault (Except ExceptionType (ℕ × Machine)) := do
  match ← m.Translate 0 virtAddr size writing with
  | (.noException,physAddr,m) => return .ok (physAddr,m)
  | (e,_,_) => return .error e

theorem access_eq (m : Machine) (x : BitVec 32) (size : ℕ) (writing : Bool) :
    m.access x size writing =
      if size = 4 ∧ x.toNat % 4 ≠ 0 ∨ size = 2 ∧ x.toNat % 2 ≠ 0 then
        return .error .addressErrorException
      else do
        check (m.translation.isSet = true)
        match m.translation.physical x writing with
        | .error e => return .error e
        | .ok (i,physAddr) =>
          check (physAddr + size ≤ MemorySize)
          return .ok (physAddr,{ m with translation := m.translation.touch i writing }) := by
  unfold access Translate
  split
  · rfl
  · by_cases hset : m.translation.isSet = true
    · simp only [check_of hset,bind,Except.bind]
      cases hphys : m.translation.physical x writing with
      | error e =>
        have hne := Translation.physical_error_ne hphys
        cases e <;> first | rfl | contradiction
      | ok r =>
        simp only [check]
        by_cases hfits : r.2 + size ≤ MemorySize
        · simp only [if_pos hfits]
          rfl
        · simp only [if_neg hfits]
    · rw [check,if_neg hset]
      rfl

/-- A translated access changes the use and dirty bits of its entry and nothing else. -/
theorem physical_of_access {m m' : Machine} {x : BitVec 32} {size p : ℕ} {writing : Bool}
    (h : m.access x size writing = .ok (.ok (p,m'))) :
    ∃ i, m.translation.physical x writing = .ok (i,p) ∧
      m' = { m with translation := m.translation.touch i writing } := by
  rw [access_eq] at h
  split at h
  · cases h
  · obtain ⟨_,h⟩ := check_bind_ok.mp h
    split at h
    · cases h
    · next i p' hphys =>
      obtain ⟨_,h⟩ := check_bind_ok.mp h
      cases h
      exact ⟨i,hphys,rfl⟩

/-- A byte is read as a signed `char`, two bytes as `unsigned short`, four as `int`. -/
def ReadMem (m : Machine) (addr : BitVec 32) (size : ℕ) :
    Except Fault (Except ExceptionType (ℤ × Machine)) := do
  match ← m.access addr size false with
  | .error e => return .error e
  | .ok (p,m) =>
    if size = 1 then return .ok ((m.mainMemory p).toInt,m)
    else if size = 2 then
      return .ok ((m.mainMemory p).toNat + 256 * (m.mainMemory (p + 1)).toNat,m)
    else if size = 4 then return .ok (int m.mainMemory p,m)
    else .error .assertion

/-- The low bytes of `value`, least significant first. -/
def store (b : Buffer) (p size : ℕ) (value : ℤ) : Buffer := fun j =>
  if p ≤ j ∧ j < p + size then (BitVec.ofInt 32 value).extractLsb' (8 * (j - p)) 8 else b j

def WriteMem (m : Machine) (addr : BitVec 32) (size : ℕ) (value : ℤ) :
    Except Fault (Except ExceptionType Machine) := do
  match ← m.access addr size true with
  | .error e => return .error e
  | .ok (p,m) =>
    if size = 1 ∨ size = 2 ∨ size = 4 then
      return .ok { m with mainMemory := store m.mainMemory p size value }
    else .error .assertion

end Hardware.Machine
end NachOS
