import NachOS.Slots
import NachOS.StubTransfer

/-! The seven file system calls on the stub file system, and the range of the offsets that
they keep. -/
namespace NachOS
namespace Stub

open StateMachine Memory

inductive Call
  | create (name : Path)
  | openFile (name : Path) (accessType : ℤ)
  | close (fd : ℤ)
  | read (length fd : ℤ)
  | write (buffer : Buffer) (length fd : ℤ)
  | seek (position fd : ℤ)
  | remove (name : Path)

/-- The result of a call and the bytes it delivers. -/
def sysCall (s : FileSystem) : Call → Except Fault (ℤ × List Byte × FileSystem)
  | .create name => do
    let (result,s) ← SysCreate s name
    return (result,[],s)
  | .openFile name accessType => do
    let (result,s) := SysOpen s name accessType
    return (result,[],s)
  | .close fd => do
    let (result,s) ← SysClose s fd
    return (result,[],s)
  | .read length fd => SysRead s length fd
  | .write buffer length fd => do
    let (result,s) ← SysWrite s buffer length fd
    return (result,[],s)
  | .seek position fd => do
    let (result,s) ← SysSeek s position fd
    return (result,[],s)
  | .remove name => do
    let (result,s) := SysRemove s name
    return (result,[],s)

/-- The handlers of `Read` and `Write` allocate buffers of `length` and of `length + 1`
bytes. -/
def Admitted : Call → Prop
  | .read length _ => 0 ≤ length
  | .write _ length _ => 0 ≤ wrap (length + 1)
  | _ => True

instance : ∀ c, Decidable (Admitted c)
  | .read _ _ => inferInstanceAs (Decidable (_ ≤ _))
  | .write _ _ _ => inferInstanceAs (Decidable (_ ≤ _))
  | .create _ | .openFile _ _ | .close _ | .seek _ _ | .remove _ =>
    inferInstanceAs (Decidable True)

def perform (s : FileSystem) (c : Call) : Except Fault (ℤ × List Byte × FileSystem) := do
  inBounds (Admitted c)
  sysCall s c

variable {s : FileSystem} {h : Host} {f : OpenFile} {o : Description} {fd : ℤ} {k n : ℕ}

/-! Reading, writing and seeking through a slot. -/

theorem description_of_slot (hn : f.file = n) (ho : s.host.fds n = some o) :
    s.host.description f.file = some o := by
  rw [hn,Host.description_natCast,ho]

theorem SysRead_slot (hf : s.get fd = some f) (hn : f.file = n) (ho : s.host.fds n = some o)
    (hacc : o.access ≠ .writeOnly) (hdir : s.host.directory o.inode = false)
    (h₀ : 0 ≤ f.currentOffset) (h₁ : f.currentOffset ≤ Host.limit) (length : ℕ) {bs : List Byte}
    (hbs : bs = ((s.host.contents o.inode).drop f.currentOffset.toNat).take length) :
    SysRead s length fd = .ok (bs.length,bs,
      ⟨Function.update s.fdTable fd.toNat
        (some { f with currentOffset := wrap (f.currentOffset + bs.length) }),
        s.host.setOffset n o (f.currentOffset.toNat + bs.length)⟩) := by
  have hd := description_of_slot hn ho
  have hreadable : ¬ f.isReadable s.host = false := by
    cases ha : o.access <;> simp_all [OpenFile.isReadable]
  have hread := OpenFile.Read_eq hd hacc hdir h₀ h₁ length hbs
  unfold SysRead
  simp only [hf,if_neg hreadable]
  rw [← hn]
  exact bind_ok.mpr ⟨_,hread,rfl⟩

theorem SysWrite_slot_iff (hf : s.get fd = some f) (hn : f.file = n)
    (ho : s.host.fds n = some o) (hacc : o.access = .readWrite) (h₀ : 0 ≤ f.currentOffset)
    (h₁ : f.currentOffset ≤ Host.limit) (buffer : Buffer) (length : ℕ) {r : ℤ × FileSystem} :
    SysWrite s buffer length fd = .ok r ↔ f.currentOffset.toNat + length ≤ Host.limit ∧
      r = ((length : ℤ),⟨Function.update s.fdTable fd.toNat
        (some { f with currentOffset := wrap (f.currentOffset + length) }),
        s.host.written n { o with offset := f.currentOffset.toNat } buffer length⟩) := by
  have hd := description_of_slot hn ho
  have hwritable : ¬ f.isWritable s.host = false := by simp [OpenFile.isWritable,hd,hacc]
  have hwrite : ∀ r, _ := fun r => OpenFile.Write_iff (r := r) hd hacc h₀ h₁ buffer length
  unfold SysWrite
  simp only [hf,if_neg hwritable]
  rw [← hn]
  constructor
  · intro hr
    obtain ⟨w,hw,hr⟩ := bind_ok.mp hr
    obtain ⟨hfit,rfl⟩ := (hwrite w).mp hw
    cases hr
    exact ⟨hfit,rfl⟩
  · rintro ⟨hfit,rfl⟩
    exact bind_ok.mpr ⟨_,(hwrite _).mpr ⟨hfit,rfl⟩,rfl⟩

/-- A file that was opened for reading is not written. -/
theorem SysWrite_readOnly (hf : s.get fd = some f) (hn : f.file = n)
    (ho : s.host.fds n = some o) (hacc : o.access = .readOnly) (buffer : Buffer) (length : ℤ) :
    SysWrite s buffer length fd = .ok (-1,s) := by
  have hd := description_of_slot hn ho
  have hwritable : f.isWritable s.host = false := by simp [OpenFile.isWritable,hd,hacc]
  unfold SysWrite
  simp only [hf,if_pos hwritable]
  rfl

theorem SysSeek_slot_iff (hf : s.get fd = some f) (hn : f.file = n)
    (ho : s.host.fds n = some o) (position : ℤ) {r : ℤ × FileSystem} :
    SysSeek s position fd = .ok r ↔ (s.host.contents o.inode).length ≤ Host.limit ∧
      r = ((seekTarget position (s.host.contents o.inode).length f.currentOffset).1,
        ⟨Function.update s.fdTable fd.toNat (some { f with currentOffset :=
          (seekTarget position (s.host.contents o.inode).length f.currentOffset).2 }),
          s.host.setOffset n o (s.host.contents o.inode).length⟩) := by
  have hd := description_of_slot hn ho
  unfold SysSeek
  simp only [hf]
  rw [← hn]
  constructor
  · intro hr
    obtain ⟨w,hw,hr⟩ := bind_ok.mp hr
    obtain ⟨o',hd',hfit,rfl⟩ := (OpenFile.Seek_iff position).mp hw
    cases hd.symm.trans hd'
    cases hr
    exact ⟨hfit,rfl⟩
  · rintro ⟨hfit,rfl⟩
    have hseek := (OpenFile.Seek_iff position).mpr ⟨o,hd,hfit,rfl⟩
    exact bind_ok.mpr ⟨_,hseek,rfl⟩

theorem SysRead_not_open (hf : s.get fd = none) (length : ℤ) :
    SysRead s length fd = .ok (-1,[],s) := by
  simp only [SysRead,hf]
  rfl

theorem SysWrite_not_open (hf : s.get fd = none) (buffer : Buffer) (length : ℤ) :
    SysWrite s buffer length fd = .ok (-1,s) := by
  simp only [SysWrite,hf]
  rfl

theorem SysSeek_not_open (hf : s.get fd = none) (position : ℤ) :
    SysSeek s position fd = .ok (-1,s) := by
  simp only [SysSeek,hf]
  rfl

/-- An offset of a slot and of its descriptor moves. -/
theorem Held.moved (hs : Held s) (hk : Slot s k f) (hn : f.file = n) (ho : s.host.fds n = some o)
    {p : ℕ} {q : ℤ} (hfds : h.fds = Function.update s.host.fds n (some { o with offset := p })) :
    Held ⟨Function.update s.fdTable k (some { f with currentOffset := q }),h⟩ := by
  have hacc : o.access ≠ .writeOnly := by
    obtain ⟨m,o',hm,ho',hacc⟩ := hs.isOpen k f hk
    have hmn : m = n := by omega
    rw [hmn,ho] at ho'
    cases ho'
    exact hacc
  constructor
  · intro i g hg
    rcases slot_installed hg with ⟨rfl,rfl⟩ | ⟨_,hg⟩
    · exact ⟨n,{ o with offset := p },hn,by simp [hfds],hacc⟩
    · obtain ⟨m,o',hm,ho',hacc'⟩ := hs.isOpen i g hg
      by_cases hmn : m = n
      · subst hmn
        exact ⟨m,{ o with offset := p },hm,by simp [hfds],hacc⟩
      · exact ⟨m,o',hm,by rw [hfds,Function.update_of_ne hmn]; exact ho',hacc'⟩
  · intro i j g g' hg hg' he
    rcases slot_installed hg with ⟨hi,hgf⟩ | ⟨_,hg⟩
    · rcases slot_installed hg' with ⟨hj,_⟩ | ⟨_,hg'⟩
      · exact hi.trans hj.symm
      · rw [hgf] at he
        exact hi.trans (hs.apart k j f g' hk hg' he)
    · rcases slot_installed hg' with ⟨hj,hgf⟩ | ⟨_,hg'⟩
      · rw [hgf] at he
        exact (hs.apart i k g f hg hk he).trans hj.symm
      · exact hs.apart i j g g' hg hg' he

/-! The range of the offsets. -/

structure Bounded (s : FileSystem) : Prop where
  held : Held s
  offset : ∀ i f, Slot s i f → 0 ≤ f.currentOffset ∧ f.currentOffset ≤ Host.limit
  fits : ∀ i f (n : ℕ) o, Slot s i f → f.file = n → s.host.fds n = some o →
    s.host.Fits o.inode

/-- The call does not read a directory, and does not write a negative number of bytes. -/
def NoSlip (s : FileSystem) : Call → Prop
  | .read _ fd => ∀ f inode, s.get fd = some f → s.host.fstat f.file = some inode →
    s.host.directory inode = false
  | .write _ length _ => 0 ≤ length
  | _ => True

namespace Bounded

theorem same (hs : Bounded s) (hfds : h.fds = s.host.fds)
    (hfits : ∀ j, s.host.Fits j → h.Fits j) : Bounded { s with host := h } where
  held := hs.held.same hfds
  offset := hs.offset
  fits := fun i f n o hf hn ho =>
    hfits _ (hs.fits i f n o hf hn ((congrFun hfds n).symm.trans ho))

theorem opened (hs : Bounded s) (hfree : s.host.fds n = none)
    (hfds : h.fds = Function.update s.host.fds n (some o))
    (hfits : ∀ j, s.host.Fits j → h.Fits j) : Bounded { s with host := h } := by
  refine ⟨hs.held.opened hfree hfds,hs.offset,?_⟩
  intro i f m o' hf hm ho'
  have hne := hs.held.ne_of_free hfree hf
  simp only [hfds,Function.update_of_ne (show m ≠ n by omega)] at ho'
  exact hfits _ (hs.fits i f m o' hf hm ho')

theorem installed (hs : Bounded s) (hfree : s.host.fds n = none) (hacc : o.access ≠ .writeOnly)
    (hfds : h.fds = Function.update s.host.fds n (some o))
    (hfits : ∀ j, s.host.Fits j → h.Fits j) (hfile : h.Fits o.inode) :
    Bounded ⟨Function.update s.fdTable k (some (.new n)),h⟩ := by
  refine ⟨hs.held.installed hfree hacc hfds,?_,?_⟩
  · intro i f hf
    rcases slot_installed hf with ⟨_,rfl⟩ | ⟨_,hf⟩
    · exact ⟨le_refl _,by simp [OpenFile.new]⟩
    · exact hs.offset i f hf
  · intro i f m o' hf hm ho'
    rcases slot_installed hf with ⟨_,rfl⟩ | ⟨_,hf⟩
    · have hnm : m = n := by
        simpa [OpenFile.new] using hm.symm
      subst hnm
      simp only [hfds,Function.update_self] at ho'
      cases ho'
      exact hfile
    · exact (hs.opened hfree hfds hfits).fits i f m o' hf hm ho'

theorem closed (hs : Bounded s) (hk : Slot s k f) (hn : f.file = n)
    (hfds : h.fds = Function.update s.host.fds n none) (hfits : ∀ j, s.host.Fits j → h.Fits j) :
    Bounded ⟨Function.update s.fdTable k none,h⟩ := by
  refine ⟨hs.held.closed hk hn hfds,fun i g hg => hs.offset i g (slot_closed hg).2,?_⟩
  intro i g m o hg hm ho
  have hmn : m ≠ n := by
    rintro rfl
    simp [hfds] at ho
  simp only [hfds,Function.update_of_ne hmn] at ho
  exact hfits _ (hs.fits i g m o (slot_closed hg).2 hm ho)

theorem moved (hs : Bounded s) (hk : Slot s k f) (hn : f.file = n) (ho : s.host.fds n = some o)
    {p : ℕ} {q : ℤ} (hfds : h.fds = Function.update s.host.fds n (some { o with offset := p }))
    (hfits : ∀ j, s.host.Fits j → h.Fits j) (h₀ : 0 ≤ q) (h₁ : q ≤ Host.limit) :
    Bounded ⟨Function.update s.fdTable k (some { f with currentOffset := q }),h⟩ := by
  refine ⟨hs.held.moved hk hn ho hfds,?_,?_⟩
  · intro i g hg
    rcases slot_installed hg with ⟨_,rfl⟩ | ⟨_,hg⟩
    · exact ⟨h₀,h₁⟩
    · exact hs.offset i g hg
  · intro i g m o' hg hm ho'
    have hfile : s.host.Fits o.inode := hs.fits k f n o hk hn ho
    by_cases hmn : m = n
    · subst hmn
      simp only [hfds,Function.update_self] at ho'
      cases ho'
      exact hfits _ hfile
    · simp only [hfds,Function.update_of_ne hmn] at ho'
      rcases slot_installed hg with ⟨_,rfl⟩ | ⟨_,hg⟩
      · simp only at hm
        omega
      · exact hfits _ (hs.fits i g m o' hg hm ho')

/-- What is known about a slot that is in use. -/
theorem slot (hs : Bounded s) (hf : s.get fd = some f) :
    ∃ (n : ℕ) (o : Description), f.file = n ∧ s.host.fds n = some o ∧ o.access ≠ .writeOnly ∧
      Slot s fd.toNat f ∧ 0 ≤ f.currentOffset ∧ f.currentOffset ≤ Host.limit ∧
      s.host.Fits o.inode := by
  have hslot := slot_of_get hf
  obtain ⟨n,o,hn,ho,hacc⟩ := hs.held.isOpen _ f hslot
  obtain ⟨h₀,h₁⟩ := hs.offset _ f hslot
  exact ⟨n,o,hn,ho,hacc,hslot,h₀,h₁,hs.fits _ f n o hslot hn ho⟩

theorem openFile (hs : Bounded s) (name : Path) (accessType : ℤ) :
    Bounded (s.Open name accessType).2 := by
  have hr := Open_result s name accessType
  generalize s.Open name accessType = r at hr ⊢
  cases hr with
  | unknown => exact hs
  | refused => exact hs.same rfl (fun _ hj => hj)
  | full _ _ ho _ => exact hs.same rfl (fun _ => ho.fits_kept)
  | installed hw _ ho _ =>
    exact hs.installed ho.free (opensWith_access hw) ho.fds (fun _ => ho.fits_kept) ho.fits

theorem remove (hs : Bounded s) (name : Path) : Bounded (SysRemove s name).2 := by
  rcases SysRemove_result s name with ⟨_,choices,hr⟩ | ⟨_,i,choices,_,_,hr⟩
  · rw [hr]
    exact hs.same rfl (fun _ hj => hj)
  · rw [hr]
    exact hs.same rfl (fun _ hj => hj)

section Transfers

variable (hs : Bounded s) (hf : s.get fd = some f) (hn : f.file = n) (ho : s.host.fds n = some o)
include hs hf hn ho

theorem read (hdir : s.host.directory o.inode = false) (length : ℕ) {bs : List Byte}
    (hbs : bs = ((s.host.contents o.inode).drop f.currentOffset.toNat).take length) :
    Bounded ⟨Function.update s.fdTable fd.toNat
      (some { f with currentOffset := wrap (f.currentOffset + bs.length) }),
      s.host.setOffset n o (f.currentOffset.toNat + bs.length)⟩ := by
  have hslot := slot_of_get hf
  obtain ⟨h₀,h₁⟩ := hs.offset _ f hslot
  have hfile := hs.fits _ f n o hslot hn ho hdir
  obtain ⟨hmax,hwrap⟩ := read_range h₀ h₁ hfile length
  rw [← hbs] at hmax hwrap
  exact hs.moved hslot hn ho rfl (fun _ hj => hj) (by omega) (by omega)

theorem write (buffer : Buffer) (length : ℕ)
    (hroom : f.currentOffset.toNat + length ≤ Host.limit) :
    Bounded ⟨Function.update s.fdTable fd.toNat
      (some { f with currentOffset := wrap (f.currentOffset + length) }),
      s.host.written n { o with offset := f.currentOffset.toNat } buffer length⟩ := by
  have hslot := slot_of_get hf
  obtain ⟨h₀,h₁⟩ := hs.offset _ f hslot
  have hwrap : wrap (f.currentOffset + length) = f.currentOffset + length := by
    simp only [Host.limit] at hroom
    exact wrap_of_range (by omega) (by omega)
  refine hs.moved hslot hn ho rfl (fun j hj => Host.fits_written hroom hj) (by omega) (by omega)

theorem seek (position : ℤ) (hfile : (s.host.contents o.inode).length ≤ Host.limit) :
    Bounded ⟨Function.update s.fdTable fd.toNat (some { f with currentOffset :=
      (seekTarget position (s.host.contents o.inode).length f.currentOffset).2 }),
      s.host.setOffset n o (s.host.contents o.inode).length⟩ := by
  have hslot := slot_of_get hf
  obtain ⟨h₀,h₁⟩ := hs.offset _ f hslot
  obtain ⟨hlow,hhigh⟩ := seekTarget_range position (s.host.contents o.inode).length h₀
  exact hs.moved hslot hn ho rfl (fun _ hj => hj) hlow (by omega)

end Transfers

end Bounded

theorem bounded_new (host : Host) : Bounded (.new host) :=
  ⟨held_new host,fun i f hf => absurd hf (not_slot_new host i f),
    fun i f _ _ hf => absurd hf (not_slot_new host i f)⟩

end Stub
end NachOS
