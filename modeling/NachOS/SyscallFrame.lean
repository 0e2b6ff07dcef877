import NachOS.Syscall

/-! What a system call leaves alone: its handler changes no register but the one of the
result. -/
namespace NachOS

open StateMachine hiding Machine
open Memory Hardware

namespace Kernel

def handle : Handler → Kernel → Except Fault Kernel
  | .halt => fun _ => SysHalt
  | .create => SystemCallCreate
  | .remove => SystemCallRemove
  | .openFile => SystemCallOpen
  | .read => SystemCallRead
  | .write => SystemCallWrite
  | .seek => SystemCallSeek
  | .close => SystemCallClose
  | .add => SystemCallAdd
  | .readNum => SystemCallReadNum
  | .printNum => SystemCallPrintNum
  | .randomNum => SystemCallRandomNum
  | .readChar => SystemCallReadChar
  | .printChar => SystemCallPrintChar
  | .readString => SystemCallReadString
  | .printString => SystemCallPrintString

/-! What each access to user memory keeps, the copies keep. -/

section Keeps

variable {R : Kernel → Kernel → Prop} (hrefl : ∀ k, R k k)
  (htrans : ∀ {k₁ k₂ k₃}, R k₁ k₂ → R k₂ k₃ → R k₁ k₃)

include hrefl htrans

theorem copyIn_keeps (hread : ∀ {k k' : Kernel} {addr value : ℤ},
      k.ReadMem addr = .ok (value,k') → R k k')
    {k k' : Kernel} {addr : ℤ} {keepNULL : Bool} {buffer b : Buffer} {i n : ℕ}
    (h : k.copyIn addr keepNULL buffer i n = .ok (b,k')) : R k k' := by
  induction n generalizing k buffer i with
  | zero =>
    cases h
    exact hrefl _
  | succ n ih =>
    obtain ⟨⟨c,k₁⟩,hc,h⟩ := bind_ok.mp h
    have hfirst := hread hc
    dsimp only at h
    split at h
    · cases h
      exact hfirst
    · exact htrans hfirst (ih h)

theorem copyOut_keeps (hwrite : ∀ {k k' : Kernel} {addr value : ℤ},
      k.WriteMem addr value = .ok k' → R k k')
    {k k' : Kernel} {addr count : ℤ} {keepNULL : Bool} {buffer : Buffer} {i n : ℕ}
    (h : k.copyOut addr buffer keepNULL i n = .ok (count,k')) : R k k' := by
  induction n generalizing k i with
  | zero =>
    cases h
    exact hrefl _
  | succ n ih =>
    obtain ⟨k₁,hc,h⟩ := bind_ok.mp h
    have hfirst := hwrite hc
    split at h
    · exact htrans hfirst (ih h)
    · cases h
      exact hfirst

end Keeps

/-- Nothing but the machine changed. -/
def OnlyMachine (k k' : Kernel) : Prop := k' = { k with machine := k'.machine }

namespace OnlyMachine

theorem refl (k : Kernel) : OnlyMachine k k := rfl

theorem trans {k₁ k₂ k₃ : Kernel} (h₁ : OnlyMachine k₁ k₂) (h₂ : OnlyMachine k₂ k₃) :
    OnlyMachine k₁ k₃ := by
  unfold OnlyMachine at *
  rw [h₂,h₁]

variable {k k' : Kernel}

theorem fileSystem (h : OnlyMachine k k') : k'.fileSystem = k.fileSystem := by
  rw [h]

theorem console (h : OnlyMachine k k') : k'.console = k.console := by
  rw [h]

theorem of_ReadMem {addr value : ℤ} (h : k.ReadMem addr = .ok (value,k')) : OnlyMachine k k' := by
  obtain ⟨r,_,h⟩ := bind_ok.mp h
  cases r with
  | error e => cases h
  | ok r =>
    cases h
    rfl

theorem of_WriteMem {addr value : ℤ} (h : k.WriteMem addr value = .ok k') : OnlyMachine k k' := by
  obtain ⟨r,_,h⟩ := bind_ok.mp h
  cases r with
  | error e => cases h
  | ok m =>
    cases h
    rfl

theorem of_User2System {addr limit : ℤ} {keepNULL : Bool} {b : Buffer}
    (h : k.User2System addr limit keepNULL = .ok (b,k')) : OnlyMachine k k' :=
  copyIn_keeps refl trans of_ReadMem (inBounds_bind_ok.mp h).2

theorem of_System2User {addr len count : ℤ} {buffer : Buffer} {keepNULL : Bool}
    (h : k.System2User addr len buffer keepNULL = .ok (count,k')) : OnlyMachine k k' := by
  unfold System2User at h
  split at h
  · cases h
    rfl
  · split at h
    · cases h
      rfl
    · exact copyOut_keeps refl trans of_WriteMem h

end OnlyMachine

/-- No register changed, and no handler was recorded. -/
structure Quiet (k k' : Kernel) : Prop where
  registers : k'.machine.registers = k.machine.registers
  executed : k'.executed = k.executed

namespace Quiet

theorem refl (k : Kernel) : Quiet k k := ⟨rfl,rfl⟩

theorem trans {k₁ k₂ k₃ : Kernel} (h₁ : Quiet k₁ k₂) (h₂ : Quiet k₂ k₃) : Quiet k₁ k₃ :=
  ⟨h₂.registers.trans h₁.registers,h₂.executed.trans h₁.executed⟩

variable {k k' : Kernel}

theorem of_access {m m' : Machine} {virtAddr : BitVec 32} {size p : ℕ} {writing : Bool}
    (h : m.access virtAddr size writing = .ok (.ok (p,m'))) : m'.registers = m.registers := by
  obtain ⟨i,_,rfl⟩ := Machine.physical_of_access h
  rfl

theorem of_ReadMem {addr value : ℤ} (h : k.ReadMem addr = .ok (value,k')) : Quiet k k' := by
  obtain ⟨r,hr,h⟩ := bind_ok.mp h
  cases r with
  | error e => cases h
  | ok r =>
    cases h
    obtain ⟨t,ht,hr⟩ := bind_ok.mp hr
    cases t with
    | error e => cases hr
    | ok t =>
      obtain ⟨p,m⟩ := t
      cases hr
      exact ⟨of_access ht,rfl⟩

theorem of_WriteMem {addr value : ℤ} (h : k.WriteMem addr value = .ok k') : Quiet k k' := by
  obtain ⟨r,hr,h⟩ := bind_ok.mp h
  cases r with
  | error e => cases h
  | ok m' =>
    cases h
    obtain ⟨t,ht,hr⟩ := bind_ok.mp hr
    cases t with
    | error e => cases hr
    | ok t =>
      obtain ⟨p,m⟩ := t
      cases hr
      have hm : m.registers = k.machine.registers := of_access ht
      exact ⟨hm,rfl⟩

theorem of_GetChar {c : Byte} (h : k.GetChar = .ok (c,k')) : Quiet k k' := by
  unfold GetChar at h
  split at h
  · cases h
  · split at h
    · cases h
      exact ⟨rfl,rfl⟩
    · cases h
      exact ⟨rfl,rfl⟩

theorem of_readString {buffer b : Buffer} {i n : ℕ}
    (h : k.readString buffer i n = .ok (b,k')) : Quiet k k' := by
  induction n generalizing k buffer i with
  | zero =>
    cases h
    exact refl _
  | succ n ih =>
    obtain ⟨⟨c,k₁⟩,hc,h⟩ := bind_ok.mp h
    have hq := of_GetChar hc
    dsimp only at h
    split at h
    · cases h
      exact hq
    · exact hq.trans (ih h)

theorem of_printString {buffer : Buffer} {i n : ℕ}
    (h : k.printString buffer i n = .ok k') : Quiet k k' := by
  induction n generalizing k i with
  | zero => cases h
  | succ n ih =>
    unfold printString at h
    split at h
    · cases h
      exact refl _
    · have hq : Quiet k (k.SysPrintChar (buffer i)) := ⟨rfl,rfl⟩
      exact hq.trans (ih h)

theorem of_parse {buffer : Buffer} {negative : Bool} {number value : ℤ} {i n : ℕ}
    (h : k.parse buffer negative number i n = .ok (value,k')) : Quiet k k' := by
  induction n generalizing number i with
  | zero =>
    cases h
    exact refl _
  | succ n ih =>
    unfold parse at h
    dsimp only at h
    split at h
    · obtain ⟨k₁,hp,h⟩ := bind_ok.mp h
      cases h
      exact of_printString hp
    · split at h
      · split at h
        · cases h
          exact refl _
        · obtain ⟨k₁,hp,h⟩ := bind_ok.mp h
          cases h
          exact of_printString hp
      · exact ih h

theorem of_SysReadNum {value : ℤ} (h : k.SysReadNum = .ok (value,k')) : Quiet k k' := by
  obtain ⟨⟨buffer,k₁⟩,hb,h⟩ := bind_ok.mp h
  have halloc : Quiet k k.alloc.2 := ⟨rfl,rfl⟩
  have hq : Quiet k k₁ := halloc.trans (of_readString hb)
  obtain ⟨len,_,h⟩ := bind_ok.mp h
  split at h
  · obtain ⟨k₂,hp,h⟩ := bind_ok.mp h
    cases h
    exact hq.trans (of_printString hp)
  · exact hq.trans (of_parse h)

theorem of_SysPrintNum {number : ℤ} (h : k.SysPrintNum number = .ok k') : Quiet k k' := by
  unfold SysPrintNum at h
  dsimp only at h
  split at h
  · exact of_printString h
  · split at h
    · exact of_printString h
    · split at h <;> exact of_printString h

theorem of_copyIn {addr : ℤ} {keepNULL : Bool} {buffer b : Buffer} {i n : ℕ}
    (h : k.copyIn addr keepNULL buffer i n = .ok (b,k')) : Quiet k k' :=
  copyIn_keeps refl trans of_ReadMem h

theorem of_User2System {addr limit : ℤ} {keepNULL : Bool} {b : Buffer}
    (h : k.User2System addr limit keepNULL = .ok (b,k')) : Quiet k k' := by
  obtain ⟨_,_,h⟩ := bind_ok.mp h
  exact of_copyIn h

theorem of_copyOut {addr count : ℤ} {keepNULL : Bool} {buffer : Buffer} {i n : ℕ}
    (h : k.copyOut addr buffer keepNULL i n = .ok (count,k')) : Quiet k k' :=
  copyOut_keeps refl trans of_WriteMem h

theorem of_System2User {addr len count : ℤ} {buffer : Buffer} {keepNULL : Bool}
    (h : k.System2User addr len buffer keepNULL = .ok (count,k')) : Quiet k k' := by
  unfold System2User at h
  split at h
  · cases h
    exact refl _
  · split at h
    · cases h
      exact refl _
    · exact of_copyOut h

theorem of_printChunks {addr : ℤ} {n : ℕ} (h : k.printChunks addr n = .ok k') : Quiet k k' := by
  induction n generalizing k addr with
  | zero => cases h
  | succ n ih =>
    obtain ⟨⟨buffer,k₁⟩,hb,h⟩ := bind_ok.mp h
    obtain ⟨k₂,hp,h⟩ := bind_ok.mp h
    have hq := (of_User2System hb).trans (of_printString hp)
    split at h
    · cases h
      exact hq
    · exact hq.trans (ih h)

theorem of_readConsole {buffer b : Buffer} {i j n : ℕ}
    (h : k.readConsole buffer i n = .ok (j,b,k')) : Quiet k k' := by
  induction n generalizing k buffer i with
  | zero =>
    cases h
    exact refl _
  | succ n ih =>
    obtain ⟨⟨c,k₁⟩,hc,h⟩ := bind_ok.mp h
    have hq := of_GetChar hc
    dsimp only at h
    split at h
    · cases h
      exact hq
    · exact hq.trans (ih h)

theorem writeConsole (k : Kernel) (buffer : Buffer) (i n : ℕ) :
    Quiet k (k.writeConsole buffer i n) := by
  induction n generalizing k i with
  | zero => exact refl _
  | succ n ih =>
    have hq : Quiet k (k.PutChar (buffer i)) := ⟨rfl,rfl⟩
    exact hq.trans (ih _ _)

theorem of_deliver {addr result : ℤ} {buffer : Buffer}
    (h : k.deliver addr result buffer = .ok k') : Quiet k k' := by
  unfold deliver at h
  split at h
  · obtain ⟨⟨_,k₁⟩,hs,h⟩ := bind_ok.mp h
    cases h
    exact of_System2User hs
  · cases h
    exact refl _

end Quiet

/-- Only the result register changed, and no handler was recorded. -/
structure Answers (k k' : Kernel) : Prop where
  registers : ∀ i, i ≠ 2 → k'.machine.registers i = k.machine.registers i
  executed : k'.executed = k.executed

namespace Answers

variable {k k₁ k' : Kernel}

theorem of_quiet (h : Quiet k k') : Answers k k' :=
  ⟨fun i _ => congrFun h.registers i,h.executed⟩

/-- The last step of most handlers: the result is put in register 2. -/
theorem of_WriteRegister {value : ℤ} (hq : Quiet k k₁) (h : k₁.WriteRegister 2 value = .ok k') :
    Answers k k' := by
  obtain ⟨m,hm,h⟩ := bind_ok.mp h
  cases h
  obtain ⟨_,hm⟩ := check_bind_ok.mp hm
  cases hm
  refine ⟨fun i hi => ?_,hq.executed⟩
  exact (Function.update_of_ne hi _ _).trans (congrFun hq.registers i)

/-- The last step of the handlers of file calls. -/
theorem of_files {fs : Stub.FileSystem} {value : ℤ} (hq : Quiet k k₁)
    (h : WriteRegister { k₁ with fileSystem := fs } 2 value = .ok k') : Answers k k' := by
  have hq' : Quiet k { k₁ with fileSystem := fs } := ⟨hq.registers,hq.executed⟩
  exact of_WriteRegister hq' h

theorem of_SystemCallSeek (h : k.SystemCallSeek = .ok k') : Answers k k' := by
  obtain ⟨position,_,h⟩ := bind_ok.mp h
  obtain ⟨fd,_,h⟩ := bind_ok.mp h
  split at h
  · obtain ⟨k₁,hp,h⟩ := bind_ok.mp h
    exact of_WriteRegister (Quiet.of_printString hp) h
  · obtain ⟨⟨result,fs⟩,_,h⟩ := bind_ok.mp h
    exact of_files (Quiet.refl k) h

theorem of_SystemCallRead (h : k.SystemCallRead = .ok k') : Answers k k' := by
  obtain ⟨virtAddr,_,h⟩ := bind_ok.mp h
  obtain ⟨length,_,h⟩ := bind_ok.mp h
  obtain ⟨fd,_,h⟩ := bind_ok.mp h
  obtain ⟨_,_,h⟩ := bind_ok.mp h
  have hq : Quiet k k.alloc.2 := ⟨rfl,rfl⟩
  dsimp only at h
  split at h
  · obtain ⟨k₁,hp,h⟩ := bind_ok.mp h
    exact of_WriteRegister (hq.trans (Quiet.of_printString hp)) h
  · split at h
    · obtain ⟨⟨i,buffer,k₁⟩,hr,h⟩ := bind_ok.mp h
      obtain ⟨⟨_,k₂⟩,hs,h⟩ := bind_ok.mp h
      exact of_WriteRegister
        ((hq.trans (Quiet.of_readConsole hr)).trans (Quiet.of_System2User hs)) h
    · obtain ⟨⟨result,bs,fs⟩,_,h⟩ := bind_ok.mp h
      obtain ⟨k₁,hd,h⟩ := bind_ok.mp h
      have hd := Quiet.of_deliver hd
      exact of_WriteRegister ⟨hd.registers,hd.executed⟩ h

theorem of_SystemCallWrite (h : k.SystemCallWrite = .ok k') : Answers k k' := by
  obtain ⟨virtAddr,_,h⟩ := bind_ok.mp h
  obtain ⟨length,_,h⟩ := bind_ok.mp h
  obtain ⟨fd,_,h⟩ := bind_ok.mp h
  obtain ⟨⟨buffer,k₁⟩,hu,h⟩ := bind_ok.mp h
  have hq := Quiet.of_User2System hu
  dsimp only at h
  split at h
  · obtain ⟨k₂,hp,h⟩ := bind_ok.mp h
    exact of_WriteRegister (hq.trans (Quiet.of_printString hp)) h
  · split at h
    · exact of_WriteRegister (hq.trans (Quiet.writeConsole _ _ _ _)) h
    · obtain ⟨⟨result,fs⟩,_,h⟩ := bind_ok.mp h
      exact of_files hq h

theorem of_SystemCallReadString (h : k.SystemCallReadString = .ok k') : Answers k k' := by
  obtain ⟨virtualAddr,_,h⟩ := bind_ok.mp h
  obtain ⟨length,_,h⟩ := bind_ok.mp h
  split at h
  · obtain ⟨_,_,h⟩ := bind_ok.mp h
    cases h
  · obtain ⟨⟨buffer,k₁⟩,hr,h⟩ := bind_ok.mp h
    obtain ⟨⟨_,k₂⟩,hs,h⟩ := bind_ok.mp h
    cases h
    have hr : Quiet k.alloc.2 k₁ := Quiet.of_readString hr
    have hs := Quiet.of_System2User hs
    exact of_quiet ⟨hs.registers.trans hr.registers,hs.executed.trans hr.executed⟩

theorem of_handle {f : Handler} (h : handle f k = .ok k') : Answers k k' := by
  cases f with
  | halt => cases h
  | create =>
    obtain ⟨_,_,h⟩ := bind_ok.mp h
    obtain ⟨⟨buffer,k₁⟩,hu,h⟩ := bind_ok.mp h
    obtain ⟨⟨result,fs⟩,_,h⟩ := bind_ok.mp h
    exact of_files (Quiet.of_User2System hu) h
  | remove =>
    obtain ⟨_,_,h⟩ := bind_ok.mp h
    obtain ⟨⟨buffer,k₁⟩,hu,h⟩ := bind_ok.mp h
    exact of_files (Quiet.of_User2System hu) h
  | openFile =>
    obtain ⟨_,_,h⟩ := bind_ok.mp h
    obtain ⟨_,_,h⟩ := bind_ok.mp h
    obtain ⟨⟨buffer,k₁⟩,hu,h⟩ := bind_ok.mp h
    exact of_files (Quiet.of_User2System hu) h
  | read => exact of_SystemCallRead h
  | write => exact of_SystemCallWrite h
  | seek => exact of_SystemCallSeek h
  | close =>
    obtain ⟨_,_,h⟩ := bind_ok.mp h
    obtain ⟨⟨result,fs⟩,_,h⟩ := bind_ok.mp h
    exact of_files (Quiet.refl k) h
  | add =>
    obtain ⟨_,_,h⟩ := bind_ok.mp h
    obtain ⟨_,_,h⟩ := bind_ok.mp h
    exact of_WriteRegister (Quiet.refl k) h
  | readNum =>
    obtain ⟨⟨result,k₁⟩,hr,h⟩ := bind_ok.mp h
    exact of_WriteRegister (Quiet.of_SysReadNum hr) h
  | printNum =>
    obtain ⟨_,_,h⟩ := bind_ok.mp h
    exact of_quiet (Quiet.of_SysPrintNum h)
  | randomNum =>
    have hq : Quiet k k.SysRandomNum.2 := ⟨rfl,rfl⟩
    exact of_WriteRegister hq h
  | readChar =>
    obtain ⟨⟨c,k₁⟩,hc,h⟩ := bind_ok.mp h
    exact of_WriteRegister (Quiet.of_GetChar hc) h
  | printChar =>
    obtain ⟨_,_,h⟩ := bind_ok.mp h
    cases h
    exact ⟨fun _ _ => rfl,rfl⟩
  | readString => exact of_SystemCallReadString h
  | printString =>
    obtain ⟨_,_,h⟩ := bind_ok.mp h
    exact of_quiet (Quiet.of_printChunks h)

end Answers

theorem ReadRegister_of_lt (k : Kernel) {num : ℕ} (h : num < NumTotalRegs) :
    k.ReadRegister num = .ok (k.machine.registers num).toInt := by
  unfold ReadRegister Machine.ReadRegister
  rw [check_of h]
  rfl

def setRegister (k : Kernel) (num : ℕ) (value : BitVec 32) : Kernel :=
  { k with machine :=
    ⟨Function.update k.machine.registers num value,k.machine.mainMemory,k.machine.translation⟩ }

@[simp] theorem setRegister_registers (k : Kernel) (num : ℕ) (value : BitVec 32) :
    (k.setRegister num value).machine.registers = Function.update k.machine.registers num value :=
  rfl

theorem WriteRegister_of_lt (k : Kernel) {num : ℕ} (value : ℤ) (h : num < NumTotalRegs) :
    k.WriteRegister num value = .ok (k.setRegister num (BitVec.ofInt 32 value)) := by
  unfold WriteRegister Machine.WriteRegister
  rw [check_of h]
  rfl

end Kernel
end NachOS
