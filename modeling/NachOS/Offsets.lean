import NachOS.Calls

/-! The offsets of open descriptors against the lengths of their files, over all runs of the
file system calls.  `Create` truncates a file that exists, also one that is open. -/
namespace NachOS
namespace Stub

open StateMachine Memory

/-- `cut` tells of which slots the file was truncated by a `Create` since it was opened. -/
structure OffsetState where
  fs : FileSystem
  result : ℤ
  cut : ℕ → Bool

/-- A `Create` of this name truncates the file in slot `i`. -/
def truncates (s : FileSystem) (name : Path) (i : ℕ) : Bool :=
  match s.fdTable i with
  | none => false
  | some f =>
    match s.host.fstat f.file with
    | none => false
    | some inode => s.host.names name == some inode

/-- The slots with truncated files after a call with the given result. -/
def recordCut (s : FileSystem) : Call → ℤ → (ℕ → Bool) → ℕ → Bool
  | .create name,result,cut =>
    if result = -1 then cut else fun i => cut i || truncates s name i
  | .openFile _ _,result,cut =>
    if result = -1 then cut else Function.update cut result.toNat false
  | _,_,cut => cut

def offsetStep (s : OffsetState) (a : Call) : Except Fault OffsetState := do
  let (result,_,fs) ← perform s.fs a
  return ⟨fs,result,recordCut s.fs a result s.cut⟩

/-- The host does not give the number of a file that has a name or is open to a new file. -/
structure HostOk (h : Host) : Prop where
  names : ∀ p i, h.names p = some i → h.used i = true
  fds : ∀ n o, h.fds n = some o → h.used o.inode = true

def offsetMachine : Machine OffsetState Call :=
  ⟨fun s => ∃ host, HostOk host ∧ s = ⟨.new host,0,fun _ => false⟩,offsetStep⟩

structure OffsetsOk (s : FileSystem) (cut : ℕ → Bool) : Prop where
  bounded : Bounded s
  host : HostOk s.host
  within : ∀ i f (n : ℕ) o, Slot s i f → f.file = n → s.host.fds n = some o → cut i = false →
    f.currentOffset ≤ (s.host.contents o.inode).length

section Host

variable {h h' : Host} {name : Path} {access : Access} {create truncate : Bool} {n i j : ℕ}
  {o : Description}

theorem HostOk.opened (hh : HostOk h) (ho : h.Opened name access create truncate n i h') :
    HostOk h' := by
  have hused : ∀ j, h.used j = true → h'.used j = true := by
    intro j hj
    rcases ho.file with ⟨_,_,hu,_⟩ | ⟨_,_,_,_,hu,_⟩
    · rw [hu]
      exact hj
    · rw [hu]
      by_cases hji : j = i
      · rw [hji,Function.update_self]
      · rw [Function.update_of_ne hji]
        exact hj
  have hnew : h'.used i = true := by
    rcases ho.file with ⟨hname,_⟩ | ⟨_,_,_,_,hu,_⟩
    · exact hused i (hh.names name i hname)
    · rw [hu,Function.update_self]
  constructor
  · intro p j hj
    rw [ho.names] at hj
    by_cases hp : p = name
    · rw [hp,Function.update_self] at hj
      cases hj
      exact hnew
    · rw [Function.update_of_ne hp] at hj
      exact hused j (hh.names p j hj)
  · intro m o hm
    rw [ho.fds] at hm
    by_cases hmn : m = n
    · rw [hmn,Function.update_self] at hm
      cases hm
      exact hnew
    · rw [Function.update_of_ne hmn] at hm
      exact hused _ (hh.fds m o hm)

/-- Descriptors are closed. -/
theorem HostOk.closed (hh : HostOk h) {fds : ℕ → Option Description}
    (hfds : ∀ n o, fds n = some o → h.fds n = some o) : HostOk { h with fds := fds } :=
  ⟨hh.names,fun n o ho => hh.fds n o (hfds n o ho)⟩

/-- Offsets on the host and contents of files do not matter. -/
theorem HostOk.moved (hh : HostOk h) (ho : h.fds n = some o) {p : ℕ} {contents : ℕ → List Byte} :
    HostOk { h with
      fds := Function.update h.fds n (some { o with offset := p }),contents := contents } := by
  refine ⟨hh.names,?_⟩
  intro m o' hm
  by_cases hmn : m = n
  · subst hmn
    simp only [Function.update_self] at hm
    cases hm
    exact hh.fds m o ho
  · simp only [Function.update_of_ne hmn] at hm
    exact hh.fds m o' hm

/-- Opening a file changes no file that is in use, except the one it truncates. -/
theorem contents_opened (ho : h.Opened name access create truncate n i h')
    (hj : h.used j = true) (hcut : truncate = true → h.names name ≠ some j) :
    h'.contents j = h.contents j := by
  rcases ho.file with ⟨hname,_,_,_,hc⟩ | ⟨_,_,_,hfresh,_,_,hc⟩
  · rw [hc]
    cases truncate with
    | false => rfl
    | true =>
      have hji : j ≠ i := by
        rintro rfl
        exact hcut rfl hname
      exact Function.update_of_ne hji _ _
  · have hji : j ≠ i := by
      rintro rfl
      rw [hfresh] at hj
      cases hj
    rw [hc,Function.update_of_ne hji]

end Host

namespace OffsetsOk

variable {s : FileSystem} {h : Host} {cut cut' : ℕ → Bool} {name : Path} {f : OpenFile}
  {o : Description} {fd : ℤ} {k n i : ℕ}

theorem opened {access : Access} {create truncate : Bool} (hs : OffsetsOk s cut)
    (ho : s.host.Opened name access create truncate n i h)
    (hcut : ∀ j, cut' j = false → cut j = false)
    (htruncated : ∀ j f (m : ℕ) o, Slot s j f → f.file = m → s.host.fds m = some o →
      cut' j = false → truncate = true → s.host.names name ≠ some o.inode) :
    OffsetsOk { s with host := h } cut' := by
  refine ⟨hs.bounded.opened ho.free ho.fds (fun _ => ho.fits_kept),hs.host.opened ho,?_⟩
  intro j f m o hf hm hfd hj
  have hne := hs.bounded.held.ne_of_free ho.free hf
  simp only [ho.fds,Function.update_of_ne (show m ≠ n by omega)] at hfd
  rw [contents_opened ho (hs.host.fds m o hfd) (htruncated j f m o hf hm hfd hj)]
  exact hs.within j f m o hf hm hfd (hcut j hj)

theorem closed (hs : OffsetsOk s cut) (hk : Slot s k f) (hn : f.file = n) :
    OffsetsOk ⟨Function.update s.fdTable k none,
      { s.host with fds := Function.update s.host.fds n none }⟩ cut := by
  have hkept : ∀ m o, Function.update s.host.fds n none m = some o → s.host.fds m = some o := by
    intro m o hm
    by_cases hmn : m = n
    · subst hmn
      simp at hm
    · rwa [Function.update_of_ne hmn] at hm
  refine ⟨hs.bounded.closed hk hn rfl (fun _ hj => hj),hs.host.closed hkept,?_⟩
  intro i g m o hg hm ho hi
  exact hs.within i g m o (slot_closed hg).2 hm (hkept m o ho) hi

theorem create (hs : OffsetsOk s cut) {r : Bool} {s' : FileSystem}
    (hr : s.Create name = .ok (r,s')) :
    r = true ∧ OffsetsOk s' (fun i => cut i || truncates s name i) := by
  obtain ⟨n,i,h,ho,hr,hcases⟩ := Create_held hs.bounded.held hr
  have hopened : OffsetsOk { s with host := h } (fun i => cut i || truncates s name i) := by
    refine hs.opened ho (fun j hj => ?_) ?_
    · exact (Bool.or_eq_false_iff.mp hj).1
    · intro j f m o hf hm hfd hj _ hname
      have hnot := (Bool.or_eq_false_iff.mp hj).2
      simp [truncates,hf.2.2,Host.fstat,description_of_slot hm hfd,hname] at hnot
  refine ⟨hr,?_⟩
  rcases hcases with ⟨_,rfl⟩ | ⟨f,m,o,hf,hm,_,_,rfl⟩
  · exact hopened
  · have hslot : Slot s n f := slot_of_get hf
    exact hopened.closed hslot hm

theorem openFile (hs : OffsetsOk s cut) (name : Path) (accessType : ℤ) :
    OffsetsOk (s.Open name accessType).2
      (recordCut s (.openFile name accessType) (s.Open name accessType).1 cut) := by
  have hr := Open_result s name accessType
  generalize hopen : s.Open name accessType = r at hr ⊢
  have hb := hs.bounded.openFile name accessType
  rw [hopen] at hb
  cases hr with
  | unknown => exact hs
  | refused => exact ⟨hb,⟨hs.host.names,hs.host.fds⟩,hs.within⟩
  | @full access create n i h _ _ ho _ =>
    refine ⟨hb,?_,?_⟩
    · have hh := hs.host.opened ho
      refine hh.closed fun m o hm => ?_
      have hmn : m ≠ n := by
        rintro rfl
        rw [ho.free] at hm
        cases hm
      rw [ho.fds,Function.update_of_ne hmn]
      exact hm
    · intro j f m o hf hm hfd hj
      simp only [contents_opened ho (hs.host.fds m o hfd) (by simp)]
      exact hs.within j f m o hf hm hfd hj
  | @installed access create n i j h _ _ ho _ =>
    have hopened : OffsetsOk { s with host := h } cut :=
      hs.opened ho (fun _ hj => hj) (by simp)
    refine ⟨hb,hopened.host,?_⟩
    have hj : ¬ (j : ℤ) = -1 := by omega
    intro l f m o hf hm hfd hl
    rcases slot_installed hf with ⟨_,rfl⟩ | ⟨hlj,hf⟩
    · exact Int.natCast_nonneg _
    · simp only [recordCut,if_neg hj,Int.toNat_natCast,Function.update_of_ne hlj] at hl
      exact hopened.within l f m o hf hm hfd hl

theorem remove (hs : OffsetsOk s cut) (name : Path) : OffsetsOk (SysRemove s name).2 cut := by
  have hb := hs.bounded.remove name
  rcases SysRemove_result s name with ⟨_,choices,hr⟩ | ⟨_,i,choices,_,_,hr⟩
  · rw [hr] at hb ⊢
    exact ⟨hb,⟨hs.host.names,hs.host.fds⟩,hs.within⟩
  · rw [hr] at hb ⊢
    refine ⟨hb,⟨?_,hs.host.fds⟩,hs.within⟩
    intro p j hj
    by_cases hp : p = name
    · simp [hp] at hj
    · simp only [Function.update_of_ne hp] at hj
      exact hs.host.names p j hj

/-- The offset of one slot moves, and no file gets shorter. -/
theorem moved (hs : OffsetsOk s cut) (hk : Slot s k f) (hn : f.file = n)
    (ho : s.host.fds n = some o) {p : ℕ} {q : ℤ} {contents : ℕ → List Byte}
    (hb : Bounded ⟨Function.update s.fdTable k (some { f with currentOffset := q }),
      { s.host with
        fds := Function.update s.host.fds n (some { o with offset := p }),contents := contents }⟩)
    (hlonger : ∀ j, (s.host.contents j).length ≤ (contents j).length)
    (hq : cut k = false → q ≤ (contents o.inode).length) :
    OffsetsOk ⟨Function.update s.fdTable k (some { f with currentOffset := q }),
      { s.host with
        fds := Function.update s.host.fds n (some { o with offset := p }),
        contents := contents }⟩ cut := by
  refine ⟨hb,hs.host.moved ho,?_⟩
  intro i g m o' hg hm ho' hi
  by_cases hmn : m = n
  · subst hmn
    simp only [Function.update_self] at ho'
    cases ho'
    rcases slot_installed hg with ⟨rfl,rfl⟩ | ⟨hik,hg⟩
    · exact hq hi
    · exact absurd (hs.bounded.held.apart i k g f hg hk (hm.trans hn.symm)) hik
  · simp only [Function.update_of_ne hmn] at ho'
    rcases slot_installed hg with ⟨_,rfl⟩ | ⟨_,hg⟩
    · simp only at hm
      omega
    · have hold := hs.within i g m o' hg hm ho' hi
      have hlen := hlonger o'.inode
      simp only
      omega

section Transfers

variable (hs : OffsetsOk s cut) (hf : s.get fd = some f) (hn : f.file = n)
  (ho : s.host.fds n = some o)
include hs hf hn ho

theorem read (hdir : s.host.directory o.inode = false) (length : ℕ) {bs : List Byte}
    (hbs : bs = ((s.host.contents o.inode).drop f.currentOffset.toNat).take length) :
    OffsetsOk ⟨Function.update s.fdTable fd.toNat
      (some { f with currentOffset := wrap (f.currentOffset + bs.length) }),
      s.host.setOffset n o (f.currentOffset.toNat + bs.length)⟩ cut := by
  have hslot := slot_of_get hf
  obtain ⟨h₀,h₁⟩ := hs.bounded.offset _ f hslot
  obtain ⟨hmax,hwrap⟩ := read_range h₀ h₁ (hs.bounded.fits _ f n o hslot hn ho hdir) length
  rw [← hbs] at hmax hwrap
  refine hs.moved hslot hn ho (hs.bounded.read hf hn ho hdir length hbs) (fun _ => le_refl _) ?_
  intro hcut
  have hold := hs.within _ f n o hslot hn ho hcut
  rw [hwrap]
  omega

theorem write (buffer : Buffer) (length : ℕ)
    (hroom : f.currentOffset.toNat + length ≤ Host.limit) :
    OffsetsOk ⟨Function.update s.fdTable fd.toNat
      (some { f with currentOffset := wrap (f.currentOffset + length) }),
      s.host.written n { o with offset := f.currentOffset.toNat } buffer length⟩ cut := by
  have hslot := slot_of_get hf
  obtain ⟨h₀,h₁⟩ := hs.bounded.offset _ f hslot
  have hwrap : wrap (f.currentOffset + length) = f.currentOffset + length := by
    simp only [Host.limit] at hroom
    exact wrap_of_range (by omega) (by omega)
  refine hs.moved hslot hn ho (hs.bounded.write hf hn ho buffer length hroom) ?_ ?_
  · intro j
    by_cases hj : j = o.inode
    · subst hj
      simp only [Function.update_self,Host.length_overwrite,List.length_map,List.length_range]
      split
      · exact le_refl _
      · exact le_max_left _ _
    · simp only [Function.update_of_ne hj]
      exact le_refl _
  · intro hcut
    have hold := hs.within _ f n o hslot hn ho hcut
    simp only [Function.update_self,Host.length_overwrite,List.length_map,List.length_range,hwrap]
    split
    · next hnil =>
      have hzero : length = 0 := by simpa using hnil
      omega
    · omega

theorem seek (position : ℤ) (hfile : (s.host.contents o.inode).length ≤ Host.limit) :
    OffsetsOk ⟨Function.update s.fdTable fd.toNat (some { f with currentOffset :=
      (seekTarget position (s.host.contents o.inode).length f.currentOffset).2 }),
      s.host.setOffset n o (s.host.contents o.inode).length⟩ cut := by
  have hslot := slot_of_get hf
  obtain ⟨h₀,h₁⟩ := hs.bounded.offset _ f hslot
  obtain ⟨_,hhigh⟩ := seekTarget_range position (s.host.contents o.inode).length h₀
  refine hs.moved hslot hn ho (hs.bounded.seek hf hn ho position hfile) (fun _ => le_refl _) ?_
  intro hcut
  have hold := hs.within _ f n o hslot hn ho hcut
  omega

end Transfers

/-! The calls. -/

variable {s' : FileSystem} {r : ℤ}

theorem sysClose (hs : OffsetsOk s cut) (hclose : SysClose s fd = .ok (r,s')) :
    OffsetsOk s' cut := by
  simp only [SysClose] at hclose
  cases hf : s.get fd with
  | none =>
    rw [Close_not_open hf] at hclose
    cases hclose
    exact hs
  | some f =>
    obtain ⟨n,o,hn,_,he⟩ := Close_held hs.bounded.held hf
    rw [he] at hclose
    cases hclose
    exact hs.closed (slot_of_get hf) hn

theorem sysRead {bs : List Byte} (hs : OffsetsOk s cut)
    (hfile : ∀ f inode, s.get fd = some f → s.host.fstat f.file = some inode →
      s.host.directory inode = false) (length : ℕ)
    (hread : SysRead s length fd = .ok (r,bs,s')) : OffsetsOk s' cut ∧ (r < 0 → s' = s) := by
  cases hf : s.get fd with
  | none =>
    rw [SysRead_not_open hf] at hread
    cases hread
    exact ⟨hs,fun _ => rfl⟩
  | some f =>
    obtain ⟨n,o,hn,ho,hacc,_,h₀,h₁,_⟩ := hs.bounded.slot hf
    have hdir : s.host.directory o.inode = false :=
      hfile f o.inode hf (by simp [Host.fstat,description_of_slot hn ho])
    rw [SysRead_slot hf hn ho hacc hdir h₀ h₁ length rfl] at hread
    cases hread
    exact ⟨hs.read hf hn ho hdir length rfl,fun hneg => by omega⟩

theorem sysWrite (hs : OffsetsOk s cut) (buffer : Buffer) (length : ℕ)
    (hwrite : SysWrite s buffer length fd = .ok (r,s')) :
    OffsetsOk s' cut ∧ (r < 0 → s' = s) := by
  cases hf : s.get fd with
  | none =>
    rw [SysWrite_not_open hf] at hwrite
    cases hwrite
    exact ⟨hs,fun _ => rfl⟩
  | some f =>
    obtain ⟨n,o,hn,ho,hacc,_,h₀,h₁,_⟩ := hs.bounded.slot hf
    cases hmode : o.access with
    | writeOnly => exact absurd hmode hacc
    | readOnly =>
      rw [SysWrite_readOnly hf hn ho hmode] at hwrite
      cases hwrite
      exact ⟨hs,fun _ => rfl⟩
    | readWrite =>
      obtain ⟨hroom,he⟩ := (SysWrite_slot_iff hf hn ho hmode h₀ h₁ buffer length).mp hwrite
      cases he
      exact ⟨hs.write hf hn ho buffer length hroom,fun hneg => by omega⟩

theorem sysSeek {position : ℤ} (hs : OffsetsOk s cut)
    (hseek : SysSeek s position fd = .ok (r,s')) : OffsetsOk s' cut := by
  cases hf : s.get fd with
  | none =>
    rw [SysSeek_not_open hf] at hseek
    cases hseek
    exact hs
  | some f =>
    obtain ⟨n,o,hn,ho,_⟩ := hs.bounded.slot hf
    obtain ⟨hfile,he⟩ := (SysSeek_slot_iff hf hn ho position).mp hseek
    cases he
    exact hs.seek hf hn ho position hfile

end OffsetsOk

/-- What a call keeps: the offsets stay in their files, and a `Read` or `Write` with a
negative result leaves the descriptors alone. -/
theorem offsetsOk_step {s t : OffsetState} {a : Call} (hs : OffsetsOk s.fs s.cut)
    (ha : NoSlip s.fs a) (ht : offsetStep s a = .ok t) : OffsetsOk t.fs t.cut ∧
    ((∃ length fd, a = .read length fd) ∨ (∃ buffer length fd, a = .write buffer length fd) →
      t.result < 0 → t.fs = s.fs) := by
  obtain ⟨⟨result,bs,fs⟩,hp,ht⟩ := bind_ok.mp ht
  cases ht
  obtain ⟨hadmitted,hp⟩ := inBounds_bind_ok.mp hp
  cases a with
  | create name =>
    obtain ⟨⟨r,s'⟩,hcreate,hp⟩ := bind_ok.mp hp
    cases hp
    refine ⟨?_,by simp⟩
    rcases SysCreate_cases hcreate with ⟨_,rfl,rfl⟩ | ⟨success,hrun,hr⟩
    · exact hs
    · obtain ⟨rfl,hcreated⟩ := hs.create hrun
      subst hr
      exact hcreated
  | openFile name accessType =>
    cases hp
    exact ⟨hs.openFile name accessType,by simp⟩
  | close fd =>
    obtain ⟨⟨r,s'⟩,hclose,hp⟩ := bind_ok.mp hp
    cases hp
    exact ⟨hs.sysClose hclose,by simp⟩
  | read length fd =>
    obtain ⟨length,rfl⟩ := Int.eq_ofNat_of_zero_le hadmitted
    obtain ⟨hok,hsame⟩ := hs.sysRead ha length hp
    exact ⟨hok,fun _ => hsame⟩
  | write buffer length fd =>
    obtain ⟨⟨r,s'⟩,hwrite,hp⟩ := bind_ok.mp hp
    cases hp
    obtain ⟨length,rfl⟩ := Int.eq_ofNat_of_zero_le ha
    obtain ⟨hok,hsame⟩ := hs.sysWrite buffer length hwrite
    exact ⟨hok,fun _ => hsame⟩
  | seek position fd =>
    obtain ⟨⟨r,s'⟩,hseek,hp⟩ := bind_ok.mp hp
    cases hp
    exact ⟨hs.sysSeek hseek,by simp⟩
  | remove name =>
    cases hp
    exact ⟨hs.remove name,by simp⟩

/-- On a host of regular files and directories without I/O errors, in every run whose calls
read no directory and write no negative number of bytes: the offset of an open descriptor is
not negative and at most the greatest one of the host, it is at most the length of the file
unless a `Create` has truncated the file since it was opened, and a `Read` or `Write` with a
negative result changes nothing. -/
theorem offsets_in_range {s : OffsetState}
    (h : offsetMachine.ReachableWith (fun s a => NoSlip s.fs a) s) :
    (∀ i f, Slot s.fs i f → ∃ o, s.fs.host.description f.file = some o ∧
      0 ≤ f.currentOffset ∧ f.currentOffset ≤ Host.limit ∧
      (s.cut i = false → f.currentOffset ≤ (s.fs.host.contents o.inode).length)) ∧
    ∀ a t, NoSlip s.fs a → offsetStep s a = .ok t →
      (∃ length fd, a = .read length fd) ∨ (∃ buffer length fd, a = .write buffer length fd) →
      t.result < 0 → t.fs = s.fs := by
  have hs : OffsetsOk s.fs s.cut := by
    apply Machine.ReachableWith.invariant _ _ h
    · rintro s ⟨host,hhost,rfl⟩
      exact ⟨bounded_new host,hhost,fun i f _ _ hf => absurd hf (not_slot_new host i f)⟩
    · intro s a t hs ha ht
      exact (offsetsOk_step hs ha ht).1
  refine ⟨?_,fun a t ha ht => (offsetsOk_step hs ha ht).2⟩
  intro i f hf
  obtain ⟨n,o,hn,ho,_⟩ := hs.bounded.held.isOpen i f hf
  obtain ⟨h₀,h₁⟩ := hs.bounded.offset i f hf
  exact ⟨o,description_of_slot hn ho,h₀,h₁,hs.within i f n o hf hn ho⟩

/-- A host with descriptors 0, 1 and 2 open, that gives out the numbers 3 and 4. -/
def offsetHost : Host where
  names := fun _ => none
  contents := fun _ => []
  directory := fun _ => false
  used := fun i => decide (i < 3)
  fds := fun n => if n < 3 then some ⟨n,.readWrite,0⟩ else none
  choices := fun n => [some ⟨3,10⟩,some ⟨4,11⟩].getD n none

theorem started_offsetHost : offsetMachine.initial ⟨.new offsetHost,0,fun _ => false⟩ := by
  refine ⟨offsetHost,?_,rfl⟩
  constructor
  · intro p i hi
    cases hi
  · intro n o ho
    simp only [offsetHost] at ho ⊢
    split at ho
    · next hn =>
      cases ho
      simpa using hn
    · cases ho

/-- A byte is written to a new file. -/
theorem offsets_in_range_written : ∃ s : OffsetState,
    offsetMachine.ReachableWith (fun s a => NoSlip s.fs a) s ∧ s.result = 1 ∧
      ∃ f o, Slot s.fs 2 f ∧ s.fs.host.description f.file = some o ∧ f.currentOffset = 1 ∧
        f.currentOffset ≤ (s.fs.host.contents o.inode).length := by
  have hrun : ∃ s t, offsetMachine.step ⟨.new offsetHost,0,fun _ => false⟩
      (.openFile [97#8] 1) = .ok s ∧
      offsetMachine.step s (.write (fun _ => 65#8) 1 2) = .ok t ∧ t.result = 1 ∧
      t.fs.fdTable 2 = some ⟨3,1⟩ ∧ t.cut 2 = false := ⟨_,_,rfl,rfl,rfl,rfl,rfl⟩
  obtain ⟨s,t,hs,ht,hr,hslot,hcut⟩ := hrun
  have hreach : offsetMachine.ReachableWith (fun s a => NoSlip s.fs a) t := by
    refine ((Machine.ReachableWith.start started_offsetHost).step ?_ hs).step ?_ ht
    · trivial
    · exact (by decide : (0 : ℤ) ≤ 1)
  have hf : Slot t.fs 2 ⟨3,1⟩ := ⟨le_refl _,by decide,hslot⟩
  obtain ⟨o,ho,_,_,hwithin⟩ := (offsets_in_range hreach).1 2 _ hf
  exact ⟨t,hreach,hr,⟨3,1⟩,o,hf,ho,rfl,hwithin hcut⟩

/-- The file of an open descriptor is created again; its offset is behind the end. -/
theorem create_cuts_open_file : ∃ s : OffsetState, offsetMachine.Reachable s ∧ s.result = 0 ∧
    ∃ f o, Slot s.fs 2 f ∧ s.fs.host.description f.file = some o ∧ f.currentOffset = 1 ∧
      (s.fs.host.contents o.inode).length = 0 := by
  have hrun : ∃ s, offsetMachine.run ⟨.new offsetHost,0,fun _ => false⟩
      [.openFile [97#8] 1,.write (fun _ => 65#8) 1 2,.create [97#8]] = .ok s ∧ s.result = 0 ∧
      s.fs.fdTable 2 = some ⟨3,1⟩ ∧ s.fs.host.description 3 = some ⟨10,.readWrite,1⟩ ∧
      s.fs.host.contents 10 = [] := ⟨_,rfl,rfl,rfl,rfl,rfl⟩
  obtain ⟨s,hs,hr,hslot,hd,hfile⟩ := hrun
  have hreach : offsetMachine.Reachable s :=
    (Machine.Reachable.start started_offsetHost).run hs
  exact ⟨s,hreach,hr,⟨3,1⟩,_,⟨le_refl _,by decide,hslot⟩,hd,rfl,by rw [hfile]; rfl⟩

end Stub
end NachOS
