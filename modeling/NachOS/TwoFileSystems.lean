import NachOS.DiskCreate
import NachOS.Slots

/-! `Create` of the two file systems on the same name.  The disk file system looks the name
up in its directory; the stub opens a file of the host for writing, which creates it if it
does not exist and truncates it if it does. -/
namespace NachOS
namespace TwoFileSystems

open StateMachine Memory FileHeader FileArray

variable {d d' : Disk} {fs : FileSystem} {s : Stub.FileSystem} {name : Buffer} {p : Path}
  {size : ℤ}

/-- The disk file system has a file of that name. -/
def OnDisk (d : Disk) (p : Path) : Prop :=
  ∃ j sector, j < NumDirEntries ∧ FileSystem.entry d j = some (sector,p)

/-- There is an entry, a sector for the header, and sectors for the data. -/
def HasRoom (d : Disk) (size : ℤ) : Prop :=
  (∃ j, j < NumDirEntries ∧ FileSystem.entry d j = none) ∧
    1 + (size + (SectorSize - 1)) / SectorSize ≤ ((FileSystem.clearBits d).card : ℤ)

/-- The host does not refuse to open the file for writing. -/
def Grants (h : Host) (p : Path) : Prop := (h.openFd p .readWrite true true).1 ≠ -1

instance (h : Host) (p : Path) : Decidable (Grants h p) := inferInstanceAs (Decidable (_ ≠ _))

/-- Every file that the host has is as before. -/
structure AllKept (h h' : Host) (p : Path) : Prop where
  names : ∀ q, q ≠ p → h'.names q = h.names q
  contents : ∀ j, h.used j = true → h'.contents j = h.contents j

theorem disk_refuses (hd : FileSystem.Fsck d) (hm : fs.Mounted d) (hkey : Directory.key name = p)
    (h₀ : 0 ≤ size) (h₁ : size ≤ MaxFileSize) (junk : ℕ → Buffer) (hp : OnDisk d p) :
    fs.Create d name size junk = .ok (false,d) := by
  rcases FileSystem.Create_ok hd hm name h₀ h₁ junk with ⟨hno,_⟩ | ⟨d',i,n,_,hc,_⟩
  · exact hno
  · obtain ⟨j,sector,hj,he⟩ := hp
    exact absurd (hkey ▸ he) (hc.new j sector hj)

theorem disk_creates (hd : FileSystem.Fsck d) (hm : fs.Mounted d) (hkey : Directory.key name = p)
    (h₀ : 0 ≤ size) (h₁ : size ≤ MaxFileSize) (junk : ℕ → Buffer) (hp : ¬ OnDisk d p)
    (hroom : HasRoom d size) : ∃ d', fs.Create d name size junk = .ok (true,d') ∧
      ∀ j, j < NumDirEntries → FileSystem.entry d j ≠ none → FileSystem.Kept d d' j := by
  rcases FileSystem.Create_ok hd hm name h₀ h₁ junk with ⟨_,hrefused⟩ | ⟨d',i,n,hyes,hc,_⟩
  · rcases (FileSystem.refused_iff hd).mp hrefused with ⟨j,sector,hj,he⟩ | hfull | hspace
    · exact absurd ⟨j,sector,hj,hkey ▸ he⟩ hp
    · obtain ⟨j,hj,hnone⟩ := hroom.1
      exact absurd hnone (hfull j hj)
    · exact absurd hroom.2 (not_le.mpr hspace)
  · refine ⟨d',hyes,fun j hj hused => hc.kept hd hj ?_⟩
    rintro rfl
    exact hused hc.free

/-- `Create` of the stub returns true, and does to the files what opening does. -/
theorem stub_creates (hs : Stub.Held s) (hg : Grants s.host p) : ∃ n i h' s',
    s.host.Opened p .readWrite true true n i h' ∧ s.Create p = .ok (true,s') ∧
      s'.host.names = h'.names ∧ s'.host.contents = h'.contents := by
  rcases s.host.openFd_opened p .readWrite true true with hr | ⟨n,i,h',hr,ho⟩
  · exact absurd (congrArg Prod.fst hr) hg
  · obtain ⟨s',hrun,hcases⟩ := Stub.Create_opened hs hr ho
    refine ⟨n,i,h',s',ho,hrun,?_⟩
    rcases hcases with ⟨_,rfl⟩ | ⟨f,m,o,_,_,_,_,rfl⟩
    · exact ⟨rfl,rfl⟩
    · exact ⟨rfl,rfl⟩

theorem stub_creates_new (hs : Stub.Held s) (hg : Grants s.host p) (hp : s.host.names p = none) :
    ∃ s', s.Create p = .ok (true,s') ∧ AllKept s.host s'.host p := by
  obtain ⟨n,i,h',s',ho,hrun,hnames,hcontents⟩ := stub_creates hs hg
  refine ⟨s',hrun,fun q hq => ?_,fun j hj => ?_⟩
  · rw [hnames,ho.names,Function.update_of_ne hq]
  · rcases ho.file with ⟨hi,_⟩ | ⟨_,_,_,hunused,_,_,hc⟩
    · rw [hp] at hi
      cases hi
    · have hji : j ≠ i := by
        rintro rfl
        rw [hunused] at hj
        cases hj
      rw [hcontents,hc,Function.update_of_ne hji]

theorem stub_truncates (hs : Stub.Held s) (hg : Grants s.host p) {i : ℕ}
    (hp : s.host.names p = some i) : ∃ s', s.Create p = .ok (true,s') ∧
      s'.host.names = s.host.names ∧
      s'.host.contents = Function.update s.host.contents i [] := by
  obtain ⟨n,i',h',s',ho,hrun,hnames,hcontents⟩ := stub_creates hs hg
  rcases ho.file with ⟨hi,_,_,_,hc⟩ | ⟨_,hnone,_⟩
  · cases hp.symm.trans hi
    refine ⟨s',hrun,?_,?_⟩
    · rw [hnames,ho.names]
      exact Function.update_eq_self_iff.mpr hp.symm
    · rw [hcontents,hc]
      rfl
  · rw [hp] at hnone
    cases hnone

/-- A name that is in neither file system can be created in both, and no file that exists
changes.  A name that is in both is refused by the disk file system, which changes nothing;
the stub empties that file, and keeps all others. -/
theorem create_of_both (hd : FileSystem.Fsck d) (hm : fs.Mounted d) (hs : Stub.Held s)
    (hname : Spells name p) (hlen : p.length ≤ FileNameMaxLen) (size : ℤ) (h₀ : 0 ≤ size)
    (h₁ : size ≤ MaxFileSize) (junk : ℕ → Buffer) (hroom : HasRoom d size)
    (hg : Grants s.host p) :
    (¬ OnDisk d p → s.host.names p = none → ∃ d' s', fs.Create d name size junk = .ok (true,d') ∧
      s.Create p = .ok (true,s') ∧ AllKept s.host s'.host p ∧
      ∀ j, j < NumDirEntries → FileSystem.entry d j ≠ none → FileSystem.Kept d d' j) ∧
    (∀ i, OnDisk d p → s.host.names p = some i → ∃ s', fs.Create d name size junk = .ok (false,d) ∧
      s.Create p = .ok (true,s') ∧ s'.host.names = s.host.names ∧
      s'.host.contents = Function.update s.host.contents i []) := by
  have hkey : Directory.key name = p := hname.cString_eq hlen
  constructor
  · intro hnot hnone
    obtain ⟨d',hdisk,hkept⟩ := disk_creates hd hm hkey h₀ h₁ junk hnot hroom
    obtain ⟨s',hstub,hall⟩ := stub_creates_new hs hg hnone
    exact ⟨d',s',hdisk,hstub,hall,hkept⟩
  · intro i hon hsome
    obtain ⟨s',hstub,hnames,hcontents⟩ := stub_truncates hs hg hsome
    exact ⟨s',disk_refuses hd hm hkey h₀ h₁ junk hon,hstub,hnames,hcontents⟩

/-- A disk whose only file has one byte. -/
theorem exists_oneFile (c : Byte) (hc : c ≠ 0#8) : ∃ (fs : FileSystem) (d : Disk) (n : ℕ),
    FileSystem.Fsck d ∧ fs.Mounted d ∧ HasRoom d 1 ∧ (∀ q, OnDisk d q ↔ q = [c]) ∧
    (∃ j, j < NumDirEntries ∧ FileSystem.entry d j = some ((n : ℤ),[c])) ∧
    (content d (d n)).length = 1 := by
  obtain ⟨fs,d₀,_,hfsck,hm,hempty,hlen⟩ := FileSystem.format_ok (fun _ _ => 0#8) fun _ _ => 0#8
  obtain ⟨d,i,n,_,hcr,hm'⟩ := FileSystem.create_empty hfsck hm hempty (letter c) 1 (by decide)
    (by decide) fun _ _ => 0#8
  have hkey : Directory.key (letter c) = [c] := (spells_letter hc).cString_eq (by simp)
  have hentry := hcr.entry_new
  rw [hkey] at hentry
  have hothers : ∀ j, j < NumDirEntries → j ≠ i → FileSystem.entry d j = none := by
    intro j hj hne
    rw [hcr.entries j hj,if_neg hne,hempty j hj]
  refine ⟨fs,d,n,hcr.fsck,hm',⟨?_,?_⟩,fun q => ⟨?_,?_⟩,⟨i,hcr.index,hentry⟩,?_⟩
  · by_cases hi : i = 0
    · exact ⟨1,by decide,hothers 1 (by decide) (by omega)⟩
    · exact ⟨0,by decide,hothers 0 (by decide) (fun h => hi h.symm)⟩
  · have hclear := hfsck.card_clearBits
    have htaken := hcr.card_taken
    have hcard := Finset.card_sdiff_add_card_eq_card hcr.clearBits_sdiff.1
    simp only [NumSectors,SectorSize] at hclear htaken ⊢
    omega
  · rintro ⟨j,sector,hj,he⟩
    by_cases hji : j = i
    · rw [hji,hentry] at he
      cases he
      rfl
    · rw [hothers j hj hji] at he
      cases he
  · rintro rfl
    exact ⟨i,n,hcr.index,hentry⟩
  · rw [length_content,hcr.size]
    rfl

/-- With the file "a" in both, for example, the file "b" is created. -/
theorem create_of_both_new : ∃ fs d d' s s', OnDisk d [97#8] ∧ s.host.names [97#8] = some 3 ∧
    FileSystem.Create fs d (letter 98#8) 1 (fun _ _ => 0#8) = .ok (true,d') ∧
    Stub.FileSystem.Create s [98#8] = .ok (true,s') ∧
    s'.host.contents 3 = s.host.contents 3 := by
  obtain ⟨fs,d,n,hd,hm,hroom,hon,_,_⟩ := exists_oneFile 97#8 (by decide)
  let s : Stub.FileSystem := .new (Host.oneFile 97#8 [7#8])
  have hgrants : Grants s.host [98#8] := by decide
  obtain ⟨d',s',hdisk,hstub,hkept,_⟩ := (create_of_both hd hm (Stub.held_new _)
    (spells_letter (c := 98#8) (by decide)) (by decide) 1 (by decide) (by decide)
    (fun _ _ => 0#8) hroom hgrants).1 (by rw [hon]; decide) rfl
  exact ⟨fs,d,d',s,s',(hon _).mpr rfl,rfl,hdisk,hstub,hkept.contents 3 rfl⟩

/-- The file "a" with the same byte in both: the disk file system refuses to create it again,
the stub returns true and empties it. -/
theorem stub_create_empties_existing_file : ∃ (fs : FileSystem) (d : Disk) (n : ℕ)
    (s s' : Stub.FileSystem), FileSystem.Fsck d ∧ fs.Mounted d ∧ HasRoom d 1 ∧
    (∃ j, j < NumDirEntries ∧ FileSystem.entry d j = some ((n : ℤ),[97#8])) ∧
    s.host.names [97#8] = some 3 ∧ s.host.contents 3 = content d (d n) ∧
    FileSystem.Create fs d (letter 97#8) 1 (fun _ _ => 0#8) = .ok (false,d) ∧
    Stub.FileSystem.Create s [97#8] = .ok (true,s') ∧ s'.host.contents 3 = [] ∧
    s'.host.contents 3 ≠ s.host.contents 3 := by
  obtain ⟨fs,d,n,hd,hm,hroom,hon,hfile,hlen⟩ := exists_oneFile 97#8 (by decide)
  let s : Stub.FileSystem := .new (Host.oneFile 97#8 (content d (d n)))
  have hfits : (Host.oneFile 97#8 (content d (d n))).refuses 3 .readWrite = false := by
    simp [Host.refuses,Host.oneFile,hlen,Host.limit]
  have hgrants : Grants s.host [97#8] := by
    have hname : (Host.oneFile 97#8 (content d (d n))).names [97#8] = some 3 := rfl
    simp only [Grants,Host.openFd,s,Stub.FileSystem.new,hname,hfits]
    simp [Host.oneFile]
  have hkey : Directory.key (letter 97#8) = [97#8] := by decide
  obtain ⟨s',hstub,_,hcontents⟩ := stub_truncates (Stub.held_new _) hgrants (i := 3) rfl
  have hempty : s'.host.contents 3 = [] := by rw [hcontents,Function.update_self]
  refine ⟨fs,d,n,s,s',hd,hm,hroom,hfile,rfl,rfl,?_,hstub,hempty,?_⟩
  · exact disk_refuses hd hm hkey (by decide) (by decide) _ ((hon _).mpr rfl)
  · rw [hempty]
    intro he
    have hnil : content d (d n) = [] := he.symm
    rw [hnil] at hlen
    cases hlen

end TwoFileSystems
end NachOS
