import NachOS.Numbers
import NachOS.Calls

/-! System calls that fail (userprog/ksyscall.h): what `Open`, `Create`, `Read` and `Write`
leave behind when they cannot do what they are asked for. -/
namespace NachOS

open StateMachine hiding Machine
open Memory Hardware

namespace Host

/-- The host lets the name be opened, with the choices `c` for descriptor and new file. -/
structure Grants (h : Host) (name : Path) (access : Access) (create : Bool) (c : Choice) : Prop where
  choice : h.choices 0 = some c
  free : h.fds c.fd = none
  present : ∀ i, h.names name = some i → h.refuses i access = false
  absent : h.names name = none → create = true ∧ name ≠ [] ∧ h.used c.inode = false

variable {h : Host} {name : Path} {access : Access} {create : Bool} {c : Choice}

theorem openFd_refused (hno : ∀ c, ¬ h.Grants name access create c) (truncate : Bool) :
    h.openFd name access create truncate = (-1,h.next) := by
  rcases h.openFd_chosen name access create truncate with hr | ⟨c,i,h',hc,hnew,_,ho⟩
  · exact hr
  · refine absurd ⟨hc,ho.free,fun j hj => ?_,fun habsent => ?_⟩ (hno c)
    · rcases ho.file with ⟨hi,hrefused,_⟩ | ⟨_,hnone,_⟩
      · cases hi.symm.trans hj
        exact hrefused
      · cases hnone.symm.trans hj
    · rcases ho.file with ⟨hi,_⟩ | ⟨hcreate,_,hname,hused,_⟩
      · cases hi.symm.trans habsent
      · rw [hnew habsent] at hused
        exact ⟨hcreate,hname,hused⟩

theorem Grants.openFd (hg : h.Grants name access create c) (truncate : Bool) :
    (h.openFd name access create truncate).1 = c.fd := by
  unfold Host.openFd
  simp only [hg.choice,hg.free,Option.isSome_none,Bool.false_eq_true,if_false]
  cases hn : h.names name with
  | some i => simp [hg.present i hn]
  | none =>
    obtain ⟨hcreate,hname,hused⟩ := hg.absent hn
    simp [hcreate,hname,hused]

theorem Grants.opened (hg : h.Grants name access create c) (truncate : Bool) :
    ∃ i h', h.openFd name access create truncate = ((c.fd : ℤ),h') ∧
      Opened h name access create truncate c.fd i h' := by
  have hfd := hg.openFd truncate
  rcases h.openFd_opened name access create truncate with hr | ⟨n,i,h',hr,ho⟩
  · rw [hr] at hfd
    dsimp only at hfd
    omega
  · rw [hr] at hfd
    have he : n = c.fd := Int.ofNat_inj.mp hfd
    subst he
    exact ⟨i,h',hr,ho⟩

end Host

namespace Stub

namespace FileSystem

/-- Every slot that `Open` may use is in use. -/
def Full (s : FileSystem) : Prop := ∀ i, 2 ≤ i → i < tableSize → s.fdTable i ≠ none

/-- The same table over the same files, with the same descriptors of the host open. -/
structure SameFiles (s s' : FileSystem) : Prop where
  fdTable : s'.fdTable = s.fdTable
  names : s'.host.names = s.host.names
  contents : s'.host.contents = s.host.contents
  directory : s'.host.directory = s.host.directory
  fds : s'.host.fds = s.host.fds

variable {s : FileSystem} {i n : ℕ}

theorem findSlot_none (h : s.findSlot i n = none) :
    ∀ j, i ≤ j → j < i + n → s.fdTable j ≠ none := by
  induction n generalizing i with
  | zero => omega
  | succ n ih =>
    intro j hj hlt
    by_cases hfree : (s.fdTable i).isNone = true
    · simp [findSlot,hfree] at h
    · have hrest : s.findSlot (i + 1) n = none := by simpa [findSlot,hfree] using h
      by_cases he : j = i
      · rw [he]
        simpa using hfree
      · exact ih hrest j (by omega) (by omega)

theorem full_of_findSlot (h : s.findSlot 2 (tableSize - 2) = none) : s.Full :=
  fun i h₁ h₂ => findSlot_none h i h₁ (by simp only [tableSize] at *; omega)

/-- A failed `Open` leaves everything as it was, but for a file that it created before it
found no slot for it. -/
theorem Open_failed_iff (s : FileSystem) (name : Path) (accessType : ℤ) :
    ((s.Open name accessType).1 = -1 → s.SameFiles (s.Open name accessType).2) ↔
      ¬ (accessType = 1 ∧ s.Full ∧ s.host.names name = none ∧
        ∃ c, s.host.Grants name .readWrite true c) := by
  generalize hr : s.Open name accessType = r
  have hresult := Open_result s name accessType
  rw [hr] at hresult
  cases hresult with
  | unknown h₀ h₁ =>
    exact iff_of_true (fun _ => ⟨rfl,rfl,rfl,rfl,rfl⟩) fun hbad => h₁ hbad.1
  | refused hw hrefused =>
    refine iff_of_true (fun _ => ⟨rfl,rfl,rfl,rfl,rfl⟩) ?_
    rintro ⟨rfl,_,_,c,hg⟩
    obtain ⟨h₀,_⟩ | ⟨_,rfl,rfl⟩ := hw
    · omega
    · have hfd := hg.openFd false
      rw [hrefused] at hfd
      dsimp only at hfd
      omega
  | full hw hopen ho hfull =>
    rcases ho.file with ⟨hname,_,_,hd,hc⟩ | ⟨hcreate,hname,_,_,_,_,_⟩
    · have hnames := ho.names.trans (Function.update_eq_self_iff.mpr hname.symm)
      refine iff_of_true (fun _ => ⟨rfl,hnames,hc,hd,rfl⟩) fun hbad => ?_
      rw [hname] at hbad
      simp at hbad
    · -- the new file has a name that was free before
      obtain ⟨_,_,hfalse⟩ | ⟨h₁,rfl,rfl⟩ := hw
      · rw [hfalse] at hcreate
        cases hcreate
      · have hgrants : ∃ c, s.host.Grants name .readWrite true c := by
          by_contra hno
          rw [Host.openFd_refused (fun c hc => hno ⟨c,hc⟩)] at hopen
          have hfd := congrArg Prod.fst hopen
          dsimp only at hfd
          omega
        refine iff_of_false (fun hsame => ?_) fun hgood =>
          hgood ⟨h₁,full_of_findSlot hfull,hname,hgrants⟩
        have hnames := congrFun (hsame rfl).names name
        rw [hname] at hnames
        simp [ho.names] at hnames
  | installed hw hopen ho hslot =>
    obtain ⟨h₁,h₂,hnone,_⟩ := findSlot_some hslot
    refine iff_of_true (fun hfailed => ?_) fun hbad => ?_
    · dsimp only at hfailed
      omega
    · exact hbad.2.1 _ h₁ (by simp only [tableSize] at *; omega) hnone

end FileSystem

/-! `Create`. -/

variable {s : FileSystem} {name : Path}

/-- The host opens the file for writing, and a slot that has the number of its descriptor,
if there is one in use, holds a file that can be closed. -/
def Creatable (s : FileSystem) (name : Path) : Prop :=
  ∃ c, s.host.Grants name .readWrite true c ∧ ∀ f, s.get c.fd = some f →
    f.file = c.fd ∨ (s.host.description f.file).isSome = true

theorem SysCreate_refused (hname : name ≠ [])
    (hno : ∀ c, ¬ s.host.Grants name .readWrite true c) :
    SysCreate s name = .error .assertion := by
  unfold SysCreate FileSystem.Create OpenForWrite
  rw [if_neg hname,Host.openFd_refused hno true]
  rfl

theorem SysCreate_granted {c : Choice} (hname : name ≠ [])
    (hg : s.host.Grants name .readWrite true c) : ∃ i h',
    Host.Opened s.host name .readWrite true true c.fd i h' ∧
    SysCreate s name = FileSystem.Close { s with host := h' } c.fd >>= fun r => .ok (0,r.2) := by
  obtain ⟨i,h',hr,ho⟩ := hg.opened true
  refine ⟨i,h',ho,?_⟩
  have hfd : (c.fd : ℤ) ≥ 0 := by omega
  have hne : ¬ (c.fd : ℤ) = -1 := by omega
  unfold SysCreate FileSystem.Create OpenForWrite
  rw [if_neg hname,hr]
  simp only [check_of hfd,if_neg hne,bind,Except.bind,pure,Except.pure]
  cases FileSystem.Close { s with host := h' } c.fd <;> rfl

/-- The descriptors of the host after one more was opened. -/
theorem description_opened {h h' : Host} {access : Access} {create truncate : Bool} {n i : ℕ}
    (ho : Host.Opened h name access create truncate n i h') (fd : ℤ) :
    (h'.description fd).isSome = true ↔ fd = n ∨ (h.description fd).isSome = true := by
  by_cases hfd : fd < 0
  · have hne : fd ≠ n := by omega
    simp [Host.description,hfd,hne]
  · obtain ⟨m,rfl⟩ := Int.eq_ofNat_of_zero_le (not_lt.mp hfd)
    rw [Host.description_natCast,Host.description_natCast,ho.fds]
    by_cases he : m = n
    · simp [he]
    · rw [Function.update_of_ne he]
      simp [he]

theorem SysCreate_ok_iff (hname : name ≠ []) : (∃ r, SysCreate s name = .ok r) ↔
    Creatable s name := by
  by_cases hgrants : ∃ c, s.host.Grants name .readWrite true c
  · obtain ⟨c,hg⟩ := hgrants
    obtain ⟨i,h',ho,hcreate⟩ := SysCreate_granted hname hg
    have honly : Creatable s name ↔ ∀ f, s.get c.fd = some f →
        (h'.description f.file).isSome = true := by
      constructor
      · rintro ⟨c',hg',hslot⟩ f hf
        cases hg'.choice.symm.trans hg.choice
        exact (description_opened ho f.file).mpr (hslot f hf)
      · intro hslot
        exact ⟨c,hg,fun f hf => (description_opened ho f.file).mp (hslot f hf)⟩
    rw [honly,hcreate]
    have hget : FileSystem.get { s with host := h' } c.fd = s.get c.fd := rfl
    cases hslot : s.get c.fd with
    | none =>
      simp only [FileSystem.Close,hget,hslot]
      exact iff_of_true ⟨_,rfl⟩ (by simp)
    | some f =>
      simp only [FileSystem.Close,hget,hslot,Option.some.injEq,forall_eq']
      constructor
      · rintro ⟨r,hr⟩
        obtain ⟨_,hclose,_⟩ := bind_ok.mp hr
        obtain ⟨host,hhost,_⟩ := bind_ok.mp hclose
        exact (Close_ok_iff.mp hhost).1
      · intro hd
        have hclose := Close_ok_iff.mpr ⟨hd,rfl⟩
        exact ⟨_,bind_ok.mpr ⟨_,bind_ok.mpr ⟨_,hclose,rfl⟩,rfl⟩⟩
  · have hnot : ¬ Creatable s name := fun ⟨c,hg,_⟩ => hgrants ⟨c,hg⟩
    rw [SysCreate_refused hname fun c hc => hgrants ⟨c,hc⟩]
    exact iff_of_false (fun ⟨_,h⟩ => by cases h) hnot

/-- What `Create` has done when it returns: there is an empty file of that name. -/
theorem SysCreate_created {r : ℤ} {s' : FileSystem} (hname : name ≠ [])
    (h : SysCreate s name = .ok (r,s')) : r = 0 ∧ ∃ i, s'.host.names name = some i ∧
      s'.host.directory i = false ∧ s'.host.contents i = [] := by
  by_cases hgrants : ∃ c, s.host.Grants name .readWrite true c
  · obtain ⟨c,hg⟩ := hgrants
    obtain ⟨i,h',ho,hcreate⟩ := SysCreate_granted hname hg
    obtain ⟨⟨r',s₁⟩,hclose,hr⟩ := bind_ok.mp (hcreate.symm.trans h)
    cases hr
    have hfile : h'.names name = some i ∧ h'.directory i = false ∧ h'.contents i = [] := by
      rw [ho.names,Function.update_self]
      rcases ho.file with ⟨_,hrefuses,_,hd,hc⟩ | ⟨_,_,_,_,_,hd,hc⟩
      · refine ⟨rfl,?_,by simp [hc]⟩
        rw [hd]
        unfold Host.refuses at hrefuses
        by_contra hdir
        simp [hdir] at hrefuses
      · exact ⟨rfl,by simp [hd],by simp [hc]⟩
    refine ⟨rfl,i,?_⟩
    unfold FileSystem.Close at hclose
    split at hclose
    · cases hclose
      exact hfile
    · obtain ⟨host,hhost,hs⟩ := bind_ok.mp hclose
      cases hs
      rw [(Close_ok_iff.mp hhost).2]
      exact hfile
  · rw [SysCreate_refused hname fun c hc => hgrants ⟨c,hc⟩] at h
    cases h

/-! `Write` with the length -1. -/

/-- The host's answer -1 to a write of -1 bytes passes for the number of bytes written. -/
theorem WriteFile_minus_one {h : Host} {fd : ℤ} (buffer : Buffer) :
    WriteFile h fd buffer (-1) = .ok h := by
  unfold WriteFile Host.write
  cases h.description fd with
  | none => rfl
  | some o => simp [bind,Except.bind,pure,Except.pure]

theorem SysWrite_minus_one_rejected {fd : ℤ} (buffer : Buffer)
    (h : ∀ f, s.get fd = some f → f.isWritable s.host = false) :
    SysWrite s buffer (-1) fd = .ok (-1,s) := by
  cases hf : s.get fd with
  | none => exact SysWrite_not_open hf buffer (-1)
  | some f =>
    simp only [SysWrite,hf,h f hf]
    rfl

/-- Into a file that can be written, the call moves the offset back by one. -/
theorem SysWrite_minus_one_moves {fd r : ℤ} {f : OpenFile} {buffer : Buffer} {s' : FileSystem}
    (hf : s.get fd = some f) (hw : f.isWritable s.host = true)
    (h : SysWrite s buffer (-1) fd = .ok (r,s')) :
    s'.fdTable fd.toNat = some { f with currentOffset := f.currentOffset - 1 } := by
  have hwritable : ¬ f.isWritable s.host = false := by simp [hw]
  simp only [SysWrite,hf,if_neg hwritable] at h
  obtain ⟨⟨value,f',host⟩,hwrite,h⟩ := bind_ok.mp h
  cases h
  obtain ⟨⟨written,host'⟩,hat,h⟩ := bind_ok.mp hwrite
  cases h
  obtain ⟨host₁,hseek,h⟩ := bind_ok.mp hat
  obtain ⟨o,_,h₀,h₁,_⟩ := Lseek_set_iff.mp hseek
  rw [WriteFile_minus_one] at h
  cases h
  have hwrap : wrap (f.currentOffset + -1) = f.currentOffset - 1 :=
    wrap_of_range (by omega) (by simp only [Host.limit] at h₁; omega)
  simp only [Function.update_self,hwrap]

end Stub

namespace Kernel

open Stub

variable {k k' : Kernel} {name : Path}

/-! The names of files. -/

/-- The string at the address in register 4 can be read, and is `name`. -/
def NamesFile (k : Kernel) (name : Path) : Prop :=
  ∃ buffer k₁, k.User2System (k.machine.registers 4).toInt MAX_SIZE false = .ok (buffer,k₁) ∧
    path buffer = name

/-- The end of a call on files. -/
def answer (k : Kernel) (result : ℤ) (fs : Stub.FileSystem) : Kernel :=
  setRegister { k with fileSystem := fs } 2 (BitVec.ofInt 32 result)

@[simp] theorem answer_result (k : Kernel) (result : ℤ) (fs : Stub.FileSystem) :
    (k.answer result fs).machine.registers 2 = BitVec.ofInt 32 result := by
  simp [answer]

@[simp] theorem answer_fileSystem (k : Kernel) (result : ℤ) (fs : Stub.FileSystem) :
    (k.answer result fs).fileSystem = fs := rfl

theorem NamesFile.SystemCallCreate (h : k.NamesFile name) : ∃ k₁ : Kernel,
    k.SystemCallCreate = SysCreate k.fileSystem name >>= fun r => .ok (k₁.answer r.1 r.2) := by
  obtain ⟨buffer,k₁,hcopy,rfl⟩ := h
  have hfiles := (OnlyMachine.of_User2System hcopy).fileSystem
  refine ⟨k₁,?_⟩
  unfold Kernel.SystemCallCreate
  rw [ReadRegister_of_lt k (by decide)]
  simp only [bind,Except.bind,hcopy,hfiles]
  cases SysCreate k.fileSystem (path buffer) with
  | error e => rfl
  | ok r => exact WriteRegister_of_lt _ _ (by decide)

theorem NamesFile.SystemCallOpen (h : k.NamesFile name) : ∃ k₁ : Kernel,
    k.SystemCallOpen = .ok (k₁.answer
      (SysOpen k.fileSystem name (k.machine.registers 5).toInt).1
      (SysOpen k.fileSystem name (k.machine.registers 5).toInt).2) := by
  obtain ⟨buffer,k₁,hcopy,rfl⟩ := h
  have hfiles := (OnlyMachine.of_User2System hcopy).fileSystem
  refine ⟨k₁,?_⟩
  unfold Kernel.SystemCallOpen
  rw [ReadRegister_of_lt k (by decide),ReadRegister_of_lt k (by decide)]
  simp only [bind,Except.bind,hcopy,hfiles]
  exact WriteRegister_of_lt _ _ (by decide)

/-- `Create` reports in register 2 how it ended just if it is given no name, or one that the
host lets it open for writing, and does not stop at a file of its table. -/
theorem create_reports_iff (h : k.NamesFile name) :
    (∃ k', k.SystemCallCreate = .ok k' ∧
      (k'.machine.registers 2 = 0 ∧ (∃ i, k'.fileSystem.host.names name = some i ∧
          k'.fileSystem.host.directory i = false ∧ k'.fileSystem.host.contents i = []) ∨
        k'.machine.registers 2 = -1 ∧ k.fileSystem.SameFiles k'.fileSystem)) ↔
      name = [] ∨ Creatable k.fileSystem name := by
  obtain ⟨k₁,hcall⟩ := h.SystemCallCreate
  rw [hcall]
  by_cases hname : name = []
  · have hempty : SysCreate k.fileSystem name = .ok (-1,k.fileSystem) := by
      rw [SysCreate,if_pos hname]
      rfl
    rw [hempty]
    refine iff_of_true ⟨_,rfl,Or.inr ⟨by simp,?_⟩⟩ (Or.inl hname)
    exact ⟨rfl,rfl,rfl,rfl,rfl⟩
  · rw [or_iff_right hname,← SysCreate_ok_iff hname]
    constructor
    · rintro ⟨k',hk',_⟩
      obtain ⟨r,hr,_⟩ := bind_ok.mp hk'
      exact ⟨r,hr⟩
    · rintro ⟨⟨r,fs⟩,hr⟩
      obtain ⟨rfl,hfile⟩ := SysCreate_created hname hr
      rw [hr]
      exact ⟨_,rfl,Or.inl ⟨by simp,hfile⟩⟩

/-- `exampleKernel` on another host, with the first `slots` entries of its table in use. -/
def onHost (c : BitVec 32) (host : Host) (slots : ℕ) : Kernel :=
  { exampleKernel c with
    fileSystem := ⟨fun i => if i < slots then some (.new i) else none,host⟩ }

theorem create_reports_iff_new : ∃ k', (exampleKernel 4).SystemCallCreate = .ok k' ∧
    (k'.machine.registers 2 = 0 ∧ (∃ i, k'.fileSystem.host.names [97#8] = some i ∧
        k'.fileSystem.host.directory i = false ∧ k'.fileSystem.host.contents i = []) ∨
      k'.machine.registers 2 = -1 ∧ (exampleKernel 4).fileSystem.SameFiles k'.fileSystem) := by
  have hname : (exampleKernel 4).NamesFile [97#8] := ⟨_,_,rfl,by decide⟩
  refine (create_reports_iff hname).mpr (Or.inr ⟨⟨3,10⟩,⟨rfl,rfl,?_,?_⟩,?_⟩)
  · intro i hi
    cases hi
  · exact fun _ => ⟨rfl,by decide,rfl⟩
  · intro f hf
    cases hf

/-- The name of a directory stops the kernel. -/
theorem create_stops_at_directory :
    (onHost 4 { exampleHost with names := fun _ => some 5, directory := fun _ => true }
      2).NamesFile [97#8] ∧
    (onHost 4 { exampleHost with names := fun _ => some 5, directory := fun _ => true }
      2).SystemCallCreate = .error .assertion :=
  ⟨⟨_,_,rfl,by decide⟩,rfl⟩

/-- An `Open` that returns -1 leaves the files, the table and the descriptors of the host as
they were, just if it has not created a file for which the table has no slot. -/
theorem open_failed_iff (h : k.NamesFile name) :
    (∀ k', k.SystemCallOpen = .ok k' → k'.machine.registers 2 = -1 →
      k.fileSystem.SameFiles k'.fileSystem) ↔
      ¬ ((k.machine.registers 5).toInt = 1 ∧ k.fileSystem.Full ∧
        k.fileSystem.host.names name = none ∧
        ∃ c, k.fileSystem.host.Grants name .readWrite true c) := by
  obtain ⟨k₁,hcall⟩ := h.SystemCallOpen
  rw [← Stub.FileSystem.Open_failed_iff,hcall]
  have hresult : ∀ r : ℤ, r = (k.fileSystem.Open name (k.machine.registers 5).toInt).1 →
      (BitVec.ofInt 32 r = -1 ↔ r = -1) := by
    intro r hr
    have hrange : -1 ≤ r ∧ r < 20 := by
      rcases Open_cases k.fileSystem name (k.machine.registers 5).toInt with ⟨he,_⟩ |
        ⟨i,_,he,_,hi,_⟩
      · omega
      · simp only [tableSize] at hi
        omega
    constructor
    · intro he
      have hint := congrArg BitVec.toInt he
      rwa [BitVec.toInt_ofInt,Int.bmod_eq_of_le (by omega) (by omega)] at hint
    · rintro rfl
      rfl
  constructor
  · intro hall hfailed
    exact hall _ rfl ((answer_result ..).trans ((hresult _ rfl).mpr hfailed))
  · intro hsame k' hk' hr2
    cases hk'
    rw [answer_result] at hr2
    exact hsame ((hresult _ rfl).mp hr2)

/-- A host with twenty open descriptors and no file. -/
def emptyHost : Host :=
  { exampleHost with
    fds := fun n => if n < 20 then some ⟨n,.readWrite,0⟩ else none
    choices := fun n => some ⟨20 + n,10 + n⟩ }

theorem open_failed_iff_readOnly : ∃ k', (onHost 6 emptyHost 20).SystemCallOpen = .ok k' ∧
    k'.machine.registers 2 = -1 ∧ (onHost 6 emptyHost 20).fileSystem.SameFiles k'.fileSystem := by
  have hname : (onHost 6 emptyHost 20).NamesFile [97#8] := ⟨_,_,rfl,by decide⟩
  have hcond := (open_failed_iff hname).mpr fun hbad => absurd hbad.1 (by decide)
  exact ⟨_,rfl,rfl,hcond _ rfl rfl⟩

/-- With a full table, `Open` of a new name for writing fails and leaves the new file. -/
theorem open_failed_creates_file :
    ((onHost 6 emptyHost 20).setRegister 5 1).NamesFile [97#8] ∧
    (onHost 6 emptyHost 20).fileSystem.host.names [97#8] = none ∧
    ∃ k', ((onHost 6 emptyHost 20).setRegister 5 1).SystemCallOpen = .ok k' ∧
      k'.machine.registers 2 = -1 ∧ k'.fileSystem.host.names [97#8] = some 10 :=
  ⟨⟨_,_,rfl,by decide⟩,rfl,_,rfl,rfl,by decide⟩

/-! Negative lengths. -/

/-- A call of `Read` or `Write` that was turned down: it has written its error message at
most. -/
structure Rejected (k k' : Kernel) : Prop where
  result : k'.machine.registers 2 = -1
  pc : AdvancedOnce k k'
  files : k.fileSystem.SameFiles k'.fileSystem
  memory : k'.machine.mainMemory = k.machine.mainMemory
  user : k'.machine.user = k.machine.user
  input : k'.console.input = k.console.input ∧ k'.console.ended = k.console.ended
  output : k'.console.output = k.console.output ∨
    k'.console.output = k.console.output ++ bytes invalid_error

theorem SystemCallRead_negative (h : (k.machine.registers 5).toInt < 0) :
    k.SystemCallRead = .error .undefined := by
  have hneg : ¬ 0 ≤ (k.machine.registers 5).toInt := by omega
  unfold SystemCallRead
  rw [ReadRegister_of_lt k (by decide),ReadRegister_of_lt k (by decide),
    ReadRegister_of_lt k (by decide)]
  simp [bind,Except.bind,inBounds,hneg]

theorem User2System_negative {addr limit : ℤ} (keepNULL : Bool) (h : limit < -1)
    (hrange : -2 ^ 31 ≤ limit) : k.User2System addr limit keepNULL = .error .undefined := by
  have hneg : ¬ 0 ≤ wrap (limit + 1) := by
    rw [wrap_of_range (by omega) (by omega)]
    omega
  simp [User2System,bind,Except.bind,inBounds,hneg]

/-- With the length -1 nothing is copied, whatever the address is. -/
theorem User2System_minus_one (k : Kernel) (addr : ℤ) (keepNULL : Bool) :
    k.User2System addr (-1) keepNULL = .ok (fun _ => 0#8,k) := rfl

/-- The handler of `Write` for the length -1. -/
theorem SystemCallWrite_minus_one (h : (k.machine.registers 5).toInt = -1) :
    k.SystemCallWrite =
      if (k.machine.registers 6).toInt ≤ 0 then
        .ok ((k.printed (bytes invalid_error)).setRegister 2 (-1))
      else if (k.machine.registers 6).toInt = 1 then .ok (k.setRegister 2 (-1))
      else SysWrite k.fileSystem (fun _ => 0#8) (-1) (k.machine.registers 6).toInt >>=
        fun r => .ok (k.answer r.1 r.2) := by
  unfold SystemCallWrite
  rw [ReadRegister_of_lt k (by decide),ReadRegister_of_lt k (by decide),
    ReadRegister_of_lt k (by decide),h]
  simp only [bind,Except.bind,User2System_minus_one]
  split
  · rw [printText_invalid]
    exact WriteRegister_of_lt _ _ (by decide)
  · split
    · exact WriteRegister_of_lt _ _ (by decide)
    · cases SysWrite k.fileSystem (fun _ => 0#8) (-1) (k.machine.registers 6).toInt with
      | error e => rfl
      | ok r => exact WriteRegister_of_lt _ _ (by decide)

theorem SystemCallWrite_negative (h : (k.machine.registers 5).toInt < -1) :
    k.SystemCallWrite = .error .undefined := by
  have hrange := BitVec.le_toInt (k.machine.registers 5)
  unfold SystemCallWrite
  rw [ReadRegister_of_lt k (by decide),ReadRegister_of_lt k (by decide),
    ReadRegister_of_lt k (by decide)]
  simp only [bind,Except.bind,User2System_negative true h (by omega)]

/-- The descriptor in register 6 is not one of an open file that can be written. -/
def NotWritable (k : Kernel) : Prop :=
  ∀ f, k.fileSystem.get (k.machine.registers 6).toInt = some f →
    f.isWritable k.fileSystem.host = false

/-- What the handler of `Write` leaves if it turns the length -1 down, up to the program
counter. -/
theorem SystemCallWrite_rejects (h : (k.machine.registers 5).toInt = -1) (hw : k.NotWritable) :
    ∃ k', k.SystemCallWrite = .ok k' ∧ k'.machine.registers 2 = -1 ∧
      k'.fileSystem = k.fileSystem ∧ k'.machine.mainMemory = k.machine.mainMemory ∧
      k'.machine.translation = k.machine.translation ∧
      (k'.console.input = k.console.input ∧ k'.console.ended = k.console.ended) ∧
      (k'.console.output = k.console.output ∨
        k'.console.output = k.console.output ++ bytes invalid_error) := by
  rw [SystemCallWrite_minus_one h]
  by_cases h₀ : (k.machine.registers 6).toInt ≤ 0
  · rw [if_pos h₀]
    exact ⟨_,rfl,by simp,rfl,rfl,rfl,⟨rfl,rfl⟩,Or.inr rfl⟩
  · by_cases h₁ : (k.machine.registers 6).toInt = 1
    · rw [if_neg h₀,if_pos h₁]
      exact ⟨_,rfl,by simp,rfl,rfl,rfl,⟨rfl,rfl⟩,Or.inl rfl⟩
    · rw [if_neg h₀,if_neg h₁,SysWrite_minus_one_rejected _ hw]
      exact ⟨_,rfl,by simp,rfl,rfl,rfl,⟨rfl,rfl⟩,Or.inl rfl⟩

/-- A file that can be written has another offset after the call. -/
theorem SystemCallWrite_moves (h : (k.machine.registers 5).toInt = -1) (hw : ¬ k.NotWritable)
    (hcall : k.SystemCallWrite = .ok k') : k'.fileSystem.fdTable ≠ k.fileSystem.fdTable := by
  unfold NotWritable at hw
  push Not at hw
  obtain ⟨f,hf,hwritable⟩ := hw
  obtain ⟨h₂,_,hslot⟩ := get_eq_some hf
  rw [SystemCallWrite_minus_one h,if_neg (by omega),if_neg (by omega)] at hcall
  obtain ⟨⟨r,fs⟩,hwrite,hk'⟩ := bind_ok.mp hcall
  cases hk'
  have hmoved := SysWrite_minus_one_moves hf (by simpa using hwritable) hwrite
  intro hsame
  have hat := congrFun hsame (k.machine.registers 6).toInt.toNat
  rw [answer_fileSystem,hmoved,hslot] at hat
  have hoffset := congrArg Stub.OpenFile.currentOffset (Option.some.inj hat)
  dsimp only at hoffset
  omega

/-- `Read` and `Write` turn a negative length down just if it is the length -1 of a `Write` to
a descriptor that cannot be written anyway. -/
theorem negative_length_rejected_iff {f : Handler} (hf : f = .read ∨ f = .write)
    (hcall : handlerOf (k.machine.registers 2).toInt = some f)
    (hneg : (k.machine.registers 5).toInt < 0) :
    (∃ k', k.ExceptionHandler .syscallException = .ok k' ∧ k.Rejected k') ↔
      f = .write ∧ (k.machine.registers 5).toInt = -1 ∧ k.NotWritable := by
  rw [ExceptionHandler_of_handlerOf hcall]
  rcases hf with rfl | rfl
  · have hread := SystemCallRead_negative (k := { k with executed := k.executed ++ [.read] }) hneg
    have hstop : (call .read k >>= ProcessPCRegister) = .error .undefined := by
      show (SystemCallRead { k with executed := k.executed ++ [.read] } >>= _) = _
      rw [hread]
      rfl
    rw [hstop]
    simp
  · let start : Kernel := { k with executed := k.executed ++ [.write] }
    have hcalled : call .write k = start.SystemCallWrite := rfl
    constructor
    · rintro ⟨k',hrun,hrejected⟩
      obtain ⟨k₁,hwrite,hpc⟩ := bind_ok.mp hrun
      rw [hcalled] at hwrite
      rw [ProcessPCRegister_eq] at hpc
      cases hpc
      have hlength : (k.machine.registers 5).toInt = -1 := by
        by_contra hne
        have hless : (start.machine.registers 5).toInt < -1 := by
          show (k.machine.registers 5).toInt < -1
          omega
        cases (SystemCallWrite_negative hless).symm.trans hwrite
      refine ⟨rfl,hlength,?_⟩
      by_contra hw
      exact SystemCallWrite_moves (k := start) hlength hw hwrite hrejected.files.fdTable
    · rintro ⟨_,hlength,hw⟩
      obtain ⟨k₁,hwrite,hresult,hfiles,hmemory,htranslation,hinput,houtput⟩ :=
        SystemCallWrite_rejects (k := start) hlength hw
      have hrun : (call .write k >>= ProcessPCRegister) = .ok k₁.advance := by
        rw [hcalled,hwrite]
        exact ProcessPCRegister_eq k₁
      refine ⟨_,hrun,?_,(executed_of_call hrun).2,?_,hmemory,?_,hinput,houtput⟩
      · simpa [advance] using hresult
      · have hsame : k₁.advance.fileSystem = k.fileSystem := hfiles
        rw [hsame]
        exact ⟨rfl,rfl,rfl,rfl,rfl⟩
      · have hm : k₁.machine.mainMemory = k.machine.mainMemory := hmemory
        have ht : k₁.machine.translation = k.machine.translation := htranslation
        show (fun x => (k₁.machine.translation.address x).map k₁.machine.mainMemory) = _
        rw [hm,ht]
        rfl

/-- `exampleKernel` with a length and a descriptor for `Read` and `Write`. -/
def withLength (c length fd : BitVec 32) : Kernel :=
  ((exampleKernel c).setRegister 5 length).setRegister 6 fd

theorem negative_length_rejected_iff_closed :
    ∃ k', (withLength 8 (-1) 7).ExceptionHandler .syscallException = .ok k' ∧
      (withLength 8 (-1) 7).Rejected k' := by
  refine (negative_length_rejected_iff (f := .write) (Or.inr rfl) rfl (by decide)).mpr ?_
  refine ⟨rfl,by decide,fun f hf => ?_⟩
  cases hf

/-- A negative length makes `Read` allocate a negative number of bytes, and so `Write` for
one below -1; -1 moves the offset of an open file from 5 back to 4. -/
theorem negative_length_ends_kernel :
    (withLength 7 (-1) 2).ExceptionHandler .syscallException = .error .undefined ∧
    (withLength 8 (-2) 2).ExceptionHandler .syscallException = .error .undefined ∧
    ∃ k', ExceptionHandler { withLength 8 (-1) 2 with
        fileSystem := ⟨fun i => if i = 2 then some ⟨2,5⟩ else none,exampleHost⟩ }
        .syscallException = .ok k' ∧
      k'.machine.registers 2 = -1 ∧
      (k'.fileSystem.fdTable 2).map Stub.OpenFile.currentOffset = some 4 :=
  ⟨rfl,rfl,_,rfl,by decide,by decide⟩

end Kernel
end NachOS
