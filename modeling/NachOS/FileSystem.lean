import NachOS.Directory
import NachOS.Inventory

/-! The disk file system (filesys/filesys.cc): a bitmap of the sectors in use and one
directory, both kept in files whose headers are in sectors 0 and 1.  `junk n` is what the
`n`-th block of memory that a call allocates contains at first. -/
namespace NachOS

open StateMachine Memory FileHeader

abbrev FreeMapSector : ℕ := 0
abbrev DirectorySector : ℕ := 1
abbrev FreeMapFileSize : ℕ := NumSectors / 8
abbrev NumDirEntries : ℕ := 10
abbrev DirectoryFileSize : ℕ := NumDirEntries * entrySize

structure FileSystem where
  freeMapFile : OpenFile
  directoryFile : OpenFile

namespace FileSystem

/-- `FileSystem(FALSE)` -/
def mount (d : Disk) : Except Fault FileSystem := do
  let freeMapFile ← OpenFile.new d FreeMapSector
  let directoryFile ← OpenFile.new d DirectorySector
  return ⟨freeMapFile,directoryFile⟩

/-- `FileSystem(TRUE)` -/
def format (d : Disk) (junk : ℕ → Buffer) : Except Fault (FileSystem × Disk) := do
  let freeMap ← Bitmap.new NumSectors fun i => word (junk 9) (4 * i)
  let directory := Directory.new NumDirEntries (junk 0)
  let freeMap ← freeMap.Mark FreeMapSector
  let freeMap ← freeMap.Mark DirectorySector
  let (success,mapHdr,freeMap) ← Allocate (junk 1) freeMap FreeMapFileSize
  check (success = true)
  let (success,dirHdr,freeMap) ← Allocate (junk 2) freeMap DirectoryFileSize
  check (success = true)
  let d ← WriteBack mapHdr d FreeMapSector
  let d ← WriteBack dirHdr d DirectorySector
  let freeMapFile ← OpenFile.new d FreeMapSector
  let directoryFile ← OpenFile.new d DirectorySector
  let d ← PersistentBitmap.WriteBack freeMap freeMapFile d (junk 3) (junk 4) (junk 5)
  let d ← directory.WriteBack directoryFile d (junk 6) (junk 7) (junk 8)
  return (⟨freeMapFile,directoryFile⟩,d)

/-- The directory that every operation reads first. -/
def readDirectory (fs : FileSystem) (d : Disk) (junk : ℕ → Buffer) : Except Fault Directory :=
  (Directory.new NumDirEntries (junk 0)).FetchFrom fs.directoryFile d (junk 1)

def Create (fs : FileSystem) (d : Disk) (name : Buffer) (initialSize : ℤ) (junk : ℕ → Buffer) :
    Except Fault (Bool × Disk) := do
  let directory ← fs.readDirectory d junk
  if directory.Find name ≠ -1 then
    return (false,d)
  else
    let freeMap ← PersistentBitmap.new fs.freeMapFile d NumSectors (junk 2)
    let (sector,freeMap) ← freeMap.FindAndSet
    if sector = -1 then
      return (false,d)
    else
      let (added,directory) := directory.Add name sector
      if added = false then
        return (false,d)
      else
        let (success,hdr,freeMap) ← Allocate (junk 3) freeMap initialSize
        if success = false then
          return (false,d)
        else
          let d ← WriteBack hdr d sector
          let d ← directory.WriteBack fs.directoryFile d (junk 4) (junk 5) (junk 6)
          let d ← PersistentBitmap.WriteBack freeMap fs.freeMapFile d (junk 7) (junk 8) (junk 9)
          return (true,d)

def Open (fs : FileSystem) (d : Disk) (name : Buffer) (junk : ℕ → Buffer) :
    Except Fault (Option OpenFile) := do
  let directory ← fs.readDirectory d junk
  let sector := directory.Find name
  if sector ≥ 0 then
    return some (← OpenFile.new d sector)
  else
    return none

def Remove (fs : FileSystem) (d : Disk) (name : Buffer) (junk : ℕ → Buffer) :
    Except Fault (Bool × Disk) := do
  let directory ← fs.readDirectory d junk
  let sector := directory.Find name
  if sector = -1 then
    return (false,d)
  else
    let fileHdr ← FetchFrom d sector
    let freeMap ← PersistentBitmap.new fs.freeMapFile d NumSectors (junk 2)
    let freeMap ← Deallocate fileHdr freeMap
    let freeMap ← freeMap.Clear sector
    let directory := (directory.Remove name).2
    let d ← PersistentBitmap.WriteBack freeMap fs.freeMapFile d (junk 3) (junk 4) (junk 5)
    let d ← directory.WriteBack fs.directoryFile d (junk 6) (junk 7) (junk 8)
    return (true,d)

/-! What is stored on the disk. -/

def table (d : Disk) : Buffer := byteAt d (d DirectorySector)

/-- Directory entry `i` on the disk, if it is in use. -/
def entry (d : Disk) (i : ℕ) : Option (ℤ × List Byte) := Directory.entry (table d) i

/-- The sectors that the free map on the disk marks. -/
def Marked (d : Disk) (n : ℕ) : Prop :=
  n < NumSectors ∧ PersistentBitmap.bit (byteAt d (d FreeMapSector)) n = true

/-- Sectors 0 and 1 and the data sectors of the free map and of the directory. -/
def system (d : Disk) : List ℕ :=
  FreeMapSector :: DirectorySector :: (data (d FreeMapSector) ++ data (d DirectorySector))

/-- The header sector and the data sectors of the file of directory entry `i`. -/
def share (d : Disk) (i : ℕ) : List ℕ :=
  match entry d i with
  | none => []
  | some (s,_) => s.toNat :: data (d s.toNat)

/-- All sectors that something on the disk refers to. -/
def owned (d : Disk) : List ℕ := Inventory.total (system d) (share d) NumDirEntries

/-- The disk is consistent: sound headers, every sector referred to once and marked,
no other sector marked, no name twice. -/
structure Fsck (d : Disk) : Prop where
  freeMap : Ok (d FreeMapSector) ∧ numBytes (d FreeMapSector) = FreeMapFileSize
  directory : Ok (d DirectorySector) ∧ numBytes (d DirectorySector) = DirectoryFileSize
  header : ∀ i s k, i < NumDirEntries → entry d i = some (s,k) → 0 ≤ s ∧ Ok (d s.toNat)
  sectors : Inventory.Exact (Marked d) (owned d)
  names : ∀ i j, i < NumDirEntries → j < NumDirEntries → i ≠ j →
    Directory.inUse (table d) i = true → Directory.inUse (table d) j = true →
    strncmp (table d) (table d) (Directory.nameOffset i) (Directory.nameOffset j)
      FileNameMaxLen ≠ 0

variable {d d' : Disk} {fs : FileSystem} {i n : ℕ}

/-- The two files of the file system itself. -/
structure SystemOk (d : Disk) : Prop where
  freeMap : Ok (d FreeMapSector) ∧ numBytes (d FreeMapSector) = FreeMapFileSize
  directory : Ok (d DirectorySector) ∧ numBytes (d DirectorySector) = DirectoryFileSize
  nodup : (system d).Nodup

theorem Fsck.systemOk (h : Fsck d) : SystemOk d := ⟨h.freeMap,h.directory,h.sectors.base_nodup⟩

theorem SystemOk.headers (h : SystemOk d) (hn : n = FreeMapSector ∨ n = DirectorySector) :
    n ∉ data (d FreeMapSector) ∧ n ∉ data (d DirectorySector) := by
  have hnodup := h.nodup
  simp only [system,List.nodup_cons,List.mem_cons,List.mem_append,not_or] at hnodup
  rcases hn with rfl | rfl
  · exact hnodup.1.2
  · exact hnodup.2.1

theorem SystemOk.disjoint (h : SystemOk d) (hn : n ∈ data (d FreeMapSector)) :
    n ∉ data (d DirectorySector) := by
  have hnodup := h.nodup
  simp only [system,List.nodup_cons] at hnodup
  exact List.disjoint_of_nodup_append hnodup.2.2 hn

/-- The open files of the file system have the headers that are on the disk. -/
structure Mounted (fs : FileSystem) (d : Disk) : Prop where
  freeMap : fs.freeMapFile.hdr = d FreeMapSector
  directory : fs.directoryFile.hdr = d DirectorySector

theorem mount_ok (d : Disk) : ∃ fs, mount d = .ok fs ∧ Mounted fs d := by
  have h₀ := FetchFrom_ok d (s := FreeMapSector) (by decide)
  have h₁ := FetchFrom_ok d (s := DirectorySector) (by decide)
  refine ⟨⟨⟨d FreeMapSector,0⟩,⟨d DirectorySector,0⟩⟩,?_,rfl,rfl⟩
  simp only [mount,OpenFile.new,h₀,h₁,bind,Except.bind,pure,Except.pure]

/-! Entries and marks depend on the data sectors of the two files. -/

theorem entry_of_data (h : Ok (d DirectorySector) ∧ numBytes (d DirectorySector) =
      DirectoryFileSize) {e e' : Disk} (he : ∀ s ∈ data (d DirectorySector), e' s = e s)
    (hi : i < NumDirEntries) : Directory.entry (byteAt e' (d DirectorySector)) i =
      Directory.entry (byteAt e (d DirectorySector)) i := by
  refine Directory.entry_congr fun k h₁ h₂ => h.1.byteAt_congr he ?_
  rw [h.2]
  simp only [DirectoryFileSize,NumDirEntries,entrySize] at *
  omega

theorem bit_of_data (h : Ok (d FreeMapSector) ∧ numBytes (d FreeMapSector) = FreeMapFileSize)
    {e e' : Disk} (he : ∀ s ∈ data (d FreeMapSector), e' s = e s) (hn : n < NumSectors) :
    PersistentBitmap.bit (byteAt e' (d FreeMapSector)) n =
      PersistentBitmap.bit (byteAt e (d FreeMapSector)) n := by
  have hx : ((n / 8 : ℕ) : ℤ) < numBytes (d FreeMapSector) := by
    rw [h.2]
    simp only [FreeMapFileSize,NumSectors] at *
    omega
  rw [PersistentBitmap.bit,PersistentBitmap.bit,h.1.byteAt_congr he hx]

theorem readDirectory_ok (h : SystemOk d) (hm : Mounted fs d) (junk : ℕ → Buffer) :
    ∃ t, fs.readDirectory d junk = .ok ⟨NumDirEntries,t⟩ ∧
      ∀ i, i < NumDirEntries → Directory.entry t i = entry d i := by
  have hd := h.directory
  rw [← hm.directory] at hd
  obtain ⟨t,ht,he⟩ := Directory.FetchFrom_ok (Directory.new NumDirEntries (junk 0))
    hd.1 d (junk 1) hd.2.ge
  refine ⟨t,ht,fun i hi => ?_⟩
  rw [he i hi,hm.directory]
  rfl

theorem readMap_ok (h : SystemOk d) (hm : Mounted fs d) (buf : Buffer) :
    ∃ m, PersistentBitmap.new fs.freeMapFile d NumSectors buf = .ok m ∧
      m.numBits = NumSectors ∧ ∀ n, n < NumSectors → (m.bit n = true ↔ Marked d n) := by
  have hf := h.freeMap
  rw [← hm.freeMap] at hf
  obtain ⟨m,hread,hbits,he⟩ := PersistentBitmap.new_ok hf.1 d buf hf.2
  refine ⟨m,hread,hbits,fun n hn => ?_⟩
  rw [he n hn,hm.freeMap,Marked]
  simp only [hn,true_and]

/-- `d'` is `d` with the table `t` and the bitmap `m` written to the two files. -/
structure Rewritten (d d' : Disk) (t : Buffer) (m : Bitmap) : Prop where
  frame : ∀ n, n ∉ data (d FreeMapSector) → n ∉ data (d DirectorySector) → d' n = d n
  entries : ∀ i, i < NumDirEntries →
    Directory.entry (byteAt d' (d DirectorySector)) i = Directory.entry t i
  marks : ∀ n, n < NumSectors → PersistentBitmap.bit (byteAt d' (d FreeMapSector)) n = m.bit n

section Flush

variable (h : SystemOk d) (hm : Mounted fs d) {m : Bitmap} (hbits : m.numBits = NumSectors)
  (t b₀ b₁ b₂ b₃ b₄ b₅ : Buffer)

include h hm hbits

theorem flush_directory_map : ∃ d₁ d', (⟨NumDirEntries,t⟩ : Directory).WriteBack
      fs.directoryFile d b₀ b₁ b₂ = .ok d₁ ∧
    PersistentBitmap.WriteBack m fs.freeMapFile d₁ b₃ b₄ b₅ = .ok d' ∧ Rewritten d d' t m := by
  have hdir := h.directory
  have hmap := h.freeMap
  rw [← hm.directory] at hdir
  rw [← hm.freeMap] at hmap
  obtain ⟨d₁,hw₁,hframe₁,he⟩ := Directory.WriteBack_ok ⟨NumDirEntries,t⟩
    hdir.1 d b₀ b₁ b₂ hdir.2.ge
  obtain ⟨d',hw₂,hframe₂,hb⟩ := PersistentBitmap.WriteBack_ok hmap.1 d₁ b₃ b₄ b₅ hbits hmap.2
  rw [hm.directory] at hframe₁ he
  rw [hm.freeMap] at hframe₂ hb
  refine ⟨d₁,d',hw₁,hw₂,fun n h₀ h₁ => ?_,fun i hi => ?_,hb⟩
  · rw [hframe₂ n h₀,hframe₁ n h₁]
  · rw [← he i hi]
    refine entry_of_data h.directory (fun s hs => hframe₂ s fun hs' => ?_) hi
    exact h.disjoint hs' hs

theorem flush_map_directory : ∃ d₁ d',
    PersistentBitmap.WriteBack m fs.freeMapFile d b₀ b₁ b₂ = .ok d₁ ∧
    (⟨NumDirEntries,t⟩ : Directory).WriteBack fs.directoryFile d₁ b₃ b₄ b₅ = .ok d' ∧
    Rewritten d d' t m := by
  have hdir := h.directory
  have hmap := h.freeMap
  rw [← hm.directory] at hdir
  rw [← hm.freeMap] at hmap
  obtain ⟨d₁,hw₁,hframe₁,hb⟩ := PersistentBitmap.WriteBack_ok hmap.1 d b₀ b₁ b₂ hbits hmap.2
  obtain ⟨d',hw₂,hframe₂,he⟩ := Directory.WriteBack_ok ⟨NumDirEntries,t⟩
    hdir.1 d₁ b₃ b₄ b₅ hdir.2.ge
  rw [hm.directory] at hframe₂ he
  rw [hm.freeMap] at hframe₁ hb
  refine ⟨d₁,d',hw₁,hw₂,fun n h₀ h₁ => ?_,he,fun n hn => ?_⟩
  · rw [hframe₂ n h₁,hframe₁ n h₀]
  · rw [← hb n hn]
    exact bit_of_data h.freeMap (fun s hs => hframe₂ s (h.disjoint hs)) hn

end Flush

namespace Rewritten

variable {t : Buffer} {m : Bitmap}

theorem frame_system (hr : Rewritten d d' t m) (hn : n ∉ system d) : d' n = d n := by
  simp only [system,List.mem_cons,List.mem_append,not_or] at hn
  exact hr.frame n hn.2.2.1 hn.2.2.2

theorem header (hr : Rewritten d d' t m) (h : SystemOk d)
    (hn : n = FreeMapSector ∨ n = DirectorySector) : d' n = d n :=
  hr.frame n (h.headers hn).1 (h.headers hn).2

theorem system_eq (hr : Rewritten d d' t m) (h : SystemOk d) : system d' = system d := by
  rw [system,system,hr.header h (Or.inl rfl),hr.header h (Or.inr rfl)]

theorem systemOk (hr : Rewritten d d' t m) (h : SystemOk d) : SystemOk d' := by
  refine ⟨?_,?_,?_⟩
  · rw [hr.header h (Or.inl rfl)]
    exact h.freeMap
  · rw [hr.header h (Or.inr rfl)]
    exact h.directory
  · rw [hr.system_eq h]
    exact h.nodup

theorem entry_eq (hr : Rewritten d d' t m) (h : SystemOk d) (hi : i < NumDirEntries) :
    entry d' i = Directory.entry t i := by
  rw [entry,table,hr.header h (Or.inr rfl)]
  exact hr.entries i hi

theorem marked_iff (hr : Rewritten d d' t m) (h : SystemOk d) :
    Marked d' n ↔ n < NumSectors ∧ m.bit n = true := by
  rw [Marked,hr.header h (Or.inl rfl)]
  refine and_congr_right fun hn => ?_
  rw [hr.marks n hn]

theorem mounted (hr : Rewritten d d' t m) (h : SystemOk d) (hm : Mounted fs d) :
    Mounted fs d' := by
  refine ⟨?_,?_⟩
  · rw [hr.header h (Or.inl rfl)]
    exact hm.freeMap
  · rw [hr.header h (Or.inr rfl)]
    exact hm.directory

end Rewritten

/-! The names. -/

/-- No two entries have the same name. -/
def NamesDistinct (d : Disk) : Prop := ∀ i j s s' k, i < NumDirEntries → j < NumDirEntries →
  entry d i = some (s,k) → entry d j = some (s',k) → i = j

theorem namesDistinct_iff : NamesDistinct d ↔
    ∀ i j, i < NumDirEntries → j < NumDirEntries → i ≠ j →
      Directory.inUse (table d) i = true → Directory.inUse (table d) j = true →
      strncmp (table d) (table d) (Directory.nameOffset i) (Directory.nameOffset j)
        FileNameMaxLen ≠ 0 := by
  constructor
  · intro h i j hi hj hne hui huj hz
    have hk := (strncmp_eq_zero _ _ _ _ _).mp hz
    exact hne (h i j _ _ _ hi hj (Directory.entry_eq_some.mpr ⟨hui,rfl,rfl⟩)
      (Directory.entry_eq_some.mpr ⟨huj,rfl,hk.symm⟩))
  · intro h i j s s' k hi hj hei hej
    by_contra hne
    obtain ⟨hui,_,hki⟩ := Directory.entry_eq_some.mp hei
    obtain ⟨huj,_,hkj⟩ := Directory.entry_eq_some.mp hej
    exact h i j hi hj hne hui huj ((strncmp_eq_zero _ _ _ _ _).mpr (hki.trans hkj.symm))

/-! Sectors and headers of a consistent disk. -/

theorem share_congr (he : entry d' i = entry d i)
    (hh : ∀ s k, entry d i = some (s,k) → d' s.toNat = d s.toNat) : share d' i = share d i := by
  rw [share,share,he]
  cases hs : entry d i with
  | none => rfl
  | some e =>
    obtain ⟨s,k⟩ := e
    simp only [hh s k hs]

theorem share_of_entry {s : ℤ} {k : List Byte} (he : entry d i = some (s,k)) :
    share d i = s.toNat :: data (d s.toNat) := by
  rw [share,he]

theorem share_of_none (he : entry d i = none) : share d i = [] := by
  rw [share,he]

namespace Fsck

variable {s : ℤ} {k : List Byte}

theorem header_mem (hi : i < NumDirEntries) (he : entry d i = some (s,k)) :
    s.toNat ∈ owned d := by
  refine Inventory.mem_total.mpr (Or.inr ⟨i,hi,?_⟩)
  rw [share_of_entry he]
  exact List.mem_cons_self

theorem sector_lt (h : Fsck d) (hi : i < NumDirEntries) (he : entry d i = some (s,k)) :
    s.toNat < NumSectors ∧ (s.toNat : ℤ) = s := by
  have hmark := (h.sectors.marked_iff _).mpr (header_mem hi he)
  exact ⟨hmark.1,Int.toNat_of_nonneg (h.header i s k hi he).1⟩

/-- A header of the directory is not a sector of the two files of the file system. -/
theorem header_system (h : Fsck d) (hi : i < NumDirEntries) (he : entry d i = some (s,k)) :
    s.toNat ∉ system d := by
  apply h.sectors.share_base hi
  rw [share_of_entry he]
  exact List.mem_cons_self

/-- Writing a sector that is not marked changes nothing of the file system. -/
theorem update_system (h : Fsck d) {s : ℕ} (hclear : ¬ Marked d s) (b : Buffer)
    (hn : n ∈ system d) : Function.update d s b n = d n := by
  refine Function.update_of_ne (fun he => hclear ?_) _ _
  rw [h.sectors.marked_iff,← he]
  exact Inventory.mem_total.mpr (Or.inl hn)

theorem system_update (h : Fsck d) {s : ℕ} (hclear : ¬ Marked d s) (b : Buffer) :
    system (Function.update d s b) = system d := by
  have h₀ := h.update_system hclear b (n := FreeMapSector) (by simp [system])
  have h₁ := h.update_system hclear b (n := DirectorySector) (by simp [system])
  rw [system,system,h₀,h₁]

theorem update_systemOk (h : Fsck d) {s : ℕ} (hclear : ¬ Marked d s) (b : Buffer) :
    SystemOk (Function.update d s b) := by
  have h₀ := h.update_system hclear b (n := FreeMapSector) (by simp [system])
  have h₁ := h.update_system hclear b (n := DirectorySector) (by simp [system])
  refine ⟨?_,?_,?_⟩
  · rw [h₀]
    exact h.freeMap
  · rw [h₁]
    exact h.directory
  · rw [h.system_update hclear]
    exact h.systemOk.nodup

theorem update_mounted (h : Fsck d) {s : ℕ} (hclear : ¬ Marked d s) (b : Buffer)
    (hm : Mounted fs d) : Mounted fs (Function.update d s b) := by
  refine ⟨?_,?_⟩
  · rw [h.update_system hclear b (by simp [system])]
    exact hm.freeMap
  · rw [h.update_system hclear b (by simp [system])]
    exact hm.directory

/-- What was written to that sector stays there when the two files are rewritten. -/
theorem stored (h : Fsck d) {s : ℕ} (hclear : ¬ Marked d s) {b t : Buffer} {m : Bitmap}
    (hr : Rewritten (Function.update d s b) d' t m) : d' s = b := by
  have hout : s ∉ system (Function.update d s b) := by
    rw [h.system_update hclear]
    intro hs
    exact hclear ((h.sectors.marked_iff s).mpr (Inventory.mem_total.mpr (Or.inl hs)))
  rw [hr.frame_system hout]
  exact Function.update_self _ _ _

/-- The number of clear bits of the free map. -/
theorem card_clear (h : Fsck d) {m : Bitmap} (hbits : m.numBits = NumSectors)
    (hm : ∀ n, n < NumSectors → (m.bit n = true ↔ Marked d n)) :
    (m.clear m.numBits).card + (owned d).length = NumSectors := by
  rw [hbits]
  refine Bitmap.card_clear h.sectors.nodup (fun n hn => ?_) fun n hn => ?_
  · exact ((h.sectors.marked_iff n).mpr hn).1
  · rw [hm n hn]
    exact h.sectors.marked_iff n

end Fsck

/-- `d'` is `d` with a new file of the given name and size: entry `i`, header in `s`.
Its sectors are the first that were clear. -/
structure Created (d d' : Disk) (name : Buffer) (size : ℤ) (i s : ℕ) : Prop where
  fsck : Fsck d'
  index : i < NumDirEntries
  free : entry d i = none
  new : ∀ j s', j < NumDirEntries → entry d j ≠ some (s',Directory.key name)
  entries : ∀ j, j < NumDirEntries →
    entry d' j = if j = i then some ((s : ℤ),Directory.key name) else entry d j
  size : numBytes (d' s) = size
  headers : ∀ j s' k, j < NumDirEntries → entry d j = some (s',k) → d' s'.toNat = d s'.toNat
  frame : ∀ n, n ≠ s → n ∉ system d → d' n = d n
  clear : ∀ n ∈ share d' i, ¬ Marked d n
  marks : ∀ n, Marked d' n ↔ Marked d n ∨ n ∈ share d' i
  first : ∀ l, l < s → Marked d l
  least : ∀ n ∈ share d' i, ∀ l, l < n → Marked d' l

/-- Why `Create` refuses a request. -/
def Refused (d : Disk) (name : Buffer) (size : ℤ) : Prop :=
  (∃ j s, j < NumDirEntries ∧ entry d j = some (s,Directory.key name)) ∨
  (∀ j, j < NumDirEntries → entry d j ≠ none) ∨
  (NumSectors : ℤ) < (owned d).length + 1 + (size + (SectorSize - 1)) / SectorSize

section Create

variable {name hdr t t' : Buffer} {m₁ m₂ : Bitmap} {s : ℕ} {d₁ : Disk}

/-- The sectors that `Allocate` picks are clear on the disk, and none is the header's. -/
theorem fresh_of_grown (hm₁ : ∀ n, n < NumSectors → (m₁.bit n = true ↔ Marked d n ∨ n = s))
    (hg : Grown m₁ m₂ hdr) {n : ℕ} (hn : n ∈ data hdr) : n ≠ s ∧ ¬ Marked d n := by
  have hlt := hg.ok.data_lt n hn
  have hoff := hg.clear n hn
  have hiff := hm₁ n hlt
  simp only [hoff,Bool.false_eq_true,false_iff,not_or] at hiff
  exact ⟨hiff.2,hiff.1⟩

/-- The bitmap that `Create` writes has the old marks, the header's sector and the data. -/
theorem marks_of_grown (hs : s < NumSectors)
    (hm₁ : ∀ n, n < NumSectors → (m₁.bit n = true ↔ Marked d n ∨ n = s))
    (hg : Grown m₁ m₂ hdr) (n : ℕ) :
    (n < NumSectors ∧ m₂.bit n = true) ↔ Marked d n ∨ n ∈ s :: data hdr := by
  rw [hg.marked,List.mem_cons]
  constructor
  · rintro ⟨hlt,hbit | hn⟩
    · rcases (hm₁ n hlt).mp hbit with hmark | he
      · exact Or.inl hmark
      · exact Or.inr (Or.inl he)
    · exact Or.inr (Or.inr hn)
  · rintro (hmark | he | hn)
    · exact ⟨hmark.1,Or.inl ((hm₁ n hmark.1).mpr (Or.inl hmark))⟩
    · exact ⟨he ▸ hs,Or.inl ((hm₁ n (he ▸ hs)).mpr (Or.inr he))⟩
    · exact ⟨hg.ok.data_lt n hn,Or.inr hn⟩

/-- Names stay distinct when a free slot gets a name that no slot has. -/
theorem NamesDistinct.insert (h : NamesDistinct d)
    (hnew : ∀ j s', j < NumDirEntries → entry d j ≠ some (s',Directory.key name))
    (hentries : ∀ j, j < NumDirEntries →
      entry d' j = if j = i then some ((s : ℤ),Directory.key name) else entry d j) :
    NamesDistinct d' := by
  intro j l s₁ s₂ k hj hl hej hel
  rw [hentries j hj] at hej
  rw [hentries l hl] at hel
  by_cases hji : j = i <;> by_cases hli : l = i
  · rw [hji,hli]
  · rw [if_pos hji] at hej
    rw [if_neg hli] at hel
    cases hej
    exact absurd hel (hnew l s₂ hl)
  · rw [if_neg hji] at hej
    rw [if_pos hli] at hel
    cases hel
    exact absurd hej (hnew j s₁ hj)
  · rw [if_neg hji] at hej
    rw [if_neg hli] at hel
    exact h j l s₁ s₂ k hj hl hej hel

/-- The disk that a successful `Create` leaves: the header is stored in a sector that was
clear, then the table and the bitmap are rewritten. -/
theorem created (h : Fsck d) (hs : s < NumSectors) (hclear : ¬ Marked d s)
    (hfirst : ∀ l, l < s → Marked d l)
    (hm₁ : ∀ n, n < NumSectors → (m₁.bit n = true ↔ Marked d n ∨ n = s))
    (hg : Grown m₁ m₂ hdr)
    (hi : i < NumDirEntries) (hfree : entry d i = none)
    (hnew : ∀ j s', j < NumDirEntries → entry d j ≠ some (s',Directory.key name))
    (ht : ∀ j, j < NumDirEntries →
      Directory.entry t' j = if j = i then some ((s : ℤ),Directory.key name) else entry d j)
    {b : Buffer} (hb : ∀ k, k < SectorSize → b k = hdr k)
    (hr : Rewritten (Function.update d s b) d' t' m₂) :
    Created d d' name (numBytes hdr) i s := by
  have hnot : s ∉ owned d := fun hin => hclear ((h.sectors.marked_iff s).mpr hin)
  have hsystem := h.system_update hclear b
  have hsok := h.update_systemOk hclear b
  have hentries : ∀ j, j < NumDirEntries →
      entry d' j = if j = i then some ((s : ℤ),Directory.key name) else entry d j := by
    intro j hj
    rw [hr.entry_eq hsok hj,ht j hj]
  have hheaders : ∀ j s' k, j < NumDirEntries → entry d j = some (s',k) →
      d' s'.toNat = d s'.toNat := by
    intro j s' k hj he
    rw [hr.frame_system (hsystem ▸ h.header_system hj he)]
    refine Function.update_of_ne (fun hs' => hnot ?_) _ _
    rw [← hs']
    exact Fsck.header_mem hj he
  have hstored := h.stored hclear hr
  have hhdr := hg.ok.congr (d' s) (hstored ▸ hb)
  have hi' : entry d' i = some ((s : ℤ),Directory.key name) := by
    rw [hentries i hi,if_pos rfl]
  have hshare : share d' i = s :: data hdr := by
    rw [share_of_entry hi',Int.toNat_natCast,hhdr.2.1]
  have hothers : ∀ j, j < NumDirEntries → j ≠ i → share d' j = share d j := by
    intro j hj hne
    refine share_congr ?_ fun s' k he => hheaders j s' k hj he
    rw [hentries j hj,if_neg hne]
  -- the sectors of the new file were all clear, and distinct
  have hfresh : ∀ n ∈ data hdr, n ≠ s ∧ ¬ Marked d n := fun n hn => fresh_of_grown hm₁ hg hn
  have hcleared : ∀ n ∈ share d' i, ¬ Marked d n := by
    intro n hn
    rw [hshare,List.mem_cons] at hn
    rcases hn with rfl | hn
    · exact hclear
    · exact (hfresh n hn).2
  have hmarks : ∀ n, Marked d' n ↔ Marked d n ∨ n ∈ share d' i := by
    intro n
    rw [hr.marked_iff hsok,hshare]
    exact marks_of_grown hs hm₁ hg n
  have hsectors : Inventory.Exact (Marked d') (owned d') := by
    rw [owned,hr.system_eq hsok,hsystem]
    refine h.sectors.acquire hi (share_of_none hfree) hothers ?_ hcleared hmarks
    rw [hshare]
    exact List.nodup_cons.mpr ⟨fun hn => (hfresh s hn).1 rfl,hg.ok.data_nodup⟩
  have hnames : NamesDistinct d' := (namesDistinct_iff.mpr h.names).insert hnew hentries
  refine ⟨⟨(hr.systemOk hsok).freeMap,(hr.systemOk hsok).directory,?_,hsectors,
    namesDistinct_iff.mp hnames⟩,hi,hfree,hnew,hentries,hhdr.2.2,hheaders,?_,hcleared,hmarks,
    hfirst,?_⟩
  · intro j s' k hj he
    by_cases hji : j = i
    · rw [hentries j hj,if_pos hji] at he
      cases he
      exact ⟨Int.natCast_nonneg s,hhdr.1⟩
    · have he' : entry d j = some (s',k) := by
        rw [hentries j hj,if_neg hji] at he
        exact he
      rw [hheaders j s' k hj he']
      exact h.header j s' k hj he'
  · intro n hne hn
    rw [hr.frame_system (hsystem ▸ hn)]
    exact Function.update_of_ne hne _ _
  · intro n hn l hl
    rw [hshare,List.mem_cons] at hn
    rcases hn with rfl | hn
    · exact (hmarks l).mpr (Or.inl (hfirst l hl))
    · have hlt := hg.ok.data_lt n hn
      exact (hr.marked_iff hsok).mpr ⟨by omega,hg.least n hn l hl⟩

/-- What `Create` has before it allocates the data sectors: `s` for the header is the first
clear sector, marked in `m₁`, and the table `t'` has the name in entry `i`. -/
structure Prepared (d : Disk) (name : Buffer) (i s : ℕ) (t' : Buffer) (m₁ : Bitmap) : Prop where
  sector : s < NumSectors
  clear : ¬ Marked d s
  first : ∀ l, l < s → Marked d l
  numBits : m₁.numBits = NumSectors
  marks : ∀ n, n < NumSectors → (m₁.bit n = true ↔ Marked d n ∨ n = s)
  count : (m₁.clear m₁.numBits).card + (owned d).length + 1 = NumSectors
  index : i < NumDirEntries
  free : entry d i = none
  new : ∀ j s', j < NumDirEntries → entry d j ≠ some (s',Directory.key name)
  entries : ∀ j, j < NumDirEntries →
    Directory.entry t' j = if j = i then some ((s : ℤ),Directory.key name) else entry d j

/-- The rest of `Create` after the data sectors are allocated. -/
def store (fs : FileSystem) (d : Disk) (s : ℕ) (t' : Buffer) (junk : ℕ → Buffer) :
    Bool × Buffer × Bitmap → Except Fault (Bool × Disk)
  | (false,_,_) => return (false,d)
  | (true,hdr,freeMap) => do
    let d ← WriteBack hdr d s
    let d ← (⟨NumDirEntries,t'⟩ : Directory).WriteBack fs.directoryFile d (junk 4) (junk 5) (junk 6)
    let d ← PersistentBitmap.WriteBack freeMap fs.freeMapFile d (junk 7) (junk 8) (junk 9)
    return (true,d)

/-- `Create` refuses for want of a name, an entry or a sector for the header, or goes on to
allocate the data sectors. -/
theorem Create_prepared (h : Fsck d) (hm : Mounted fs d) (name : Buffer) (size : ℤ)
    (junk : ℕ → Buffer) :
    (fs.Create d name size junk = .ok (false,d) ∧
      ((∃ j s, j < NumDirEntries ∧ entry d j = some (s,Directory.key name)) ∨
        (∀ j, j < NumDirEntries → entry d j ≠ none) ∨ (owned d).length = NumSectors)) ∨
    ∃ i s t' m₁, Prepared d name i s t' m₁ ∧ fs.Create d name size junk =
      (Allocate (junk 3) m₁ size >>= fs.store d s t' junk) := by
  obtain ⟨t,hdir,ht⟩ := readDirectory_ok h.systemOk hm junk
  rcases Directory.Find_ok ⟨NumDirEntries,t⟩ name with ⟨j,s,hj,he,_,hfind⟩ | ⟨hnew,hindex,hfind⟩
  · rw [ht j hj] at he
    have hs := (h.sector_lt hj he).2
    have hne : Directory.Find ⟨NumDirEntries,t⟩ name ≠ -1 := by omega
    exact Or.inl ⟨bind_ok.mpr ⟨_,hdir,if_pos hne⟩,Or.inl ⟨j,s,hj,he⟩⟩
  obtain ⟨m,hmap,hbits,hmark⟩ := readMap_ok h.systemOk hm (junk 2)
  have hcard := h.card_clear hbits hmark
  -- the name is new, so the free map is searched
  have hcreate : fs.Create d name size junk = _ := bind_of_ok hdir _
  simp only [hfind,ne_eq,not_true_eq_false,if_false] at hcreate
  rw [bind_of_ok hmap] at hcreate
  rcases m.FindAndSet_ok with ⟨s,m₁,hs,hfree,hleast,hset,hn₁,hbit⟩ | ⟨hall,hset⟩
  · have hmem : s ∈ m.clear m.numBits := Bitmap.mem_clear.mpr ⟨hs,hfree⟩
    have hpos := Finset.card_pos.mpr ⟨s,hmem⟩
    rw [hbits] at hs
    have hs' : ¬ (s : ℤ) = -1 := by omega
    have hs₃ : (s : ℤ) < 2 ^ 31 := by
      simp only [NumSectors] at hs
      omega
    rw [bind_of_ok hset] at hcreate
    simp only [if_neg hs'] at hcreate
    rcases Directory.Add_ok ⟨NumDirEntries,t⟩ (s := s) (by omega) hs₃ hindex with
      ⟨i,t',hi,hnone,hadd,ht'⟩ | ⟨hfull,hadd⟩
    · refine Or.inr ⟨i,s,t',m₁,⟨hs,?_,?_,hn₁.trans hbits,?_,?_,hi,ht i hi ▸ hnone,
        fun j s' hj => ht j hj ▸ hnew j s' hj,fun j hj => by rw [ht',ht j hj]⟩,?_⟩
      · rw [← hmark s hs,hfree]
        simp
      · intro l hl
        exact (hmark l (by omega)).mp (hleast l hl)
      · intro n hn
        rw [hbit,← hmark n hn]
        by_cases he : n = s <;> simp [he]
      · rw [hn₁,Bitmap.clear_of_mark hbit,Finset.card_erase_of_mem hmem]
        omega
      · rw [hcreate]
        simp only [hadd,Bool.true_eq_false,if_false]
        refine congrArg (Allocate (junk 3) m₁ size >>= ·) (funext fun r => ?_)
        obtain ⟨success,hdr,m₂⟩ := r
        cases success with
        | false => rfl
        | true => rfl
    · refine Or.inl ⟨?_,Or.inr (Or.inl fun j hj => ?_)⟩
      · rw [hcreate]
        simp only [hadd]
        rfl
      · rw [← ht j hj]
        exact hfull j hj
  · refine Or.inl ⟨hcreate.trans (bind_of_ok hset _),Or.inr (Or.inr ?_)⟩
    have hempty : m.clear m.numBits = ∅ := by
      ext n
      simp only [Bitmap.mem_clear,Finset.notMem_empty,iff_false,not_and]
      intro hn
      simp [hall n hn]
    rw [hempty,Finset.card_empty] at hcard
    omega

/-- The header, the table and the bitmap can be written. -/
theorem store_ok (h : Fsck d) (hm : Mounted fs d) {m₁ : Bitmap}
    (hp : Prepared d name i s t' m₁) (hdr : Buffer) {m₂ : Bitmap} (hbits : m₂.numBits = NumSectors)
    (junk : ℕ → Buffer) :
    ∃ b d', fs.store d s t' junk (true,hdr,m₂) = .ok (true,d') ∧
      (∀ k, k < SectorSize → b k = hdr k) ∧ Rewritten (Function.update d s b) d' t' m₂ := by
  obtain ⟨b,hw,hb⟩ := WriteBack_ok hdr d hp.sector
  have hsok := h.update_systemOk hp.clear b
  have hmount := h.update_mounted hp.clear b hm
  obtain ⟨d₁,d',hw₁,hw₂,hr⟩ := flush_directory_map hsok hmount hbits t' (junk 4) (junk 5) (junk 6)
    (junk 7) (junk 8) (junk 9)
  exact ⟨b,d',bind_ok.mpr ⟨_,hw,bind_ok.mpr ⟨_,hw₁,bind_ok.mpr ⟨_,hw₂,rfl⟩⟩⟩,hb,hr⟩

/-- `Create` either makes the file or leaves the disk as it is. -/
theorem Create_ok (h : Fsck d) (hm : Mounted fs d) (name : Buffer) {size : ℤ} (h₀ : 0 ≤ size)
    (h₁ : size ≤ MaxFileSize) (junk : ℕ → Buffer) :
    (fs.Create d name size junk = .ok (false,d) ∧ Refused d name size) ∨
    ∃ d' i s, fs.Create d name size junk = .ok (true,d') ∧ Created d d' name size i s ∧
      Mounted fs d' := by
  rcases Create_prepared h hm name size junk with
    ⟨hno,htaken | hfull | hspace⟩ | ⟨i,s,t',m₁,hp,hrun⟩
  · exact Or.inl ⟨hno,Or.inl htaken⟩
  · exact Or.inl ⟨hno,Or.inr (Or.inl hfull)⟩
  · refine Or.inl ⟨hno,Or.inr (Or.inr ?_)⟩
    simp only [SectorSize]
    omega
  have hcount := hp.count
  rw [hrun]
  rcases Allocate_ok (junk 3) hp.numBits _ h₀ h₁ with
    ⟨hfew,hdr,halloc⟩ | ⟨hdr,m₂,halloc,hbytes,hg⟩
  · refine Or.inl ⟨bind_ok.mpr ⟨_,halloc,rfl⟩,Or.inr (Or.inr ?_)⟩
    simp only [SectorSize] at hfew ⊢
    omega
  · obtain ⟨b,d',hstore,hb,hr⟩ := store_ok h hm hp hdr (hg.numBits.trans hp.numBits) junk
    have hcreated := created h hp.sector hp.clear hp.first hp.marks hg hp.index hp.free hp.new
      hp.entries hb hr
    have hmount := hr.mounted (h.update_systemOk hp.clear b) (h.update_mounted hp.clear b hm)
    exact Or.inr ⟨d',i,s,bind_ok.mpr ⟨_,halloc,hstore⟩,hbytes ▸ hcreated,hmount⟩

/-- The files of the file system itself take five sectors. -/
theorem SystemOk.length_system (h : SystemOk d) : (system d).length = 5 := by
  have hmap := h.freeMap.1.length_data
  have hdirectory := h.directory.1.length_data
  rw [h.freeMap.2] at hmap
  rw [h.directory.2] at hdirectory
  simp only [FreeMapFileSize,DirectoryFileSize,NumDirEntries,entrySize,NumSectors,SectorSize]
    at hmap hdirectory
  simp only [system,List.length_cons,List.length_append]
  omega

/-- If the directory is empty, a file of any size can be created. -/
theorem create_empty (h : Fsck d) (hm : Mounted fs d)
    (hempty : ∀ i, i < NumDirEntries → entry d i = none) (name : Buffer) (size : ℤ)
    (h₀ : 0 ≤ size) (h₁ : size ≤ MaxFileSize) (junk : ℕ → Buffer) :
    ∃ d' i s, fs.Create d name size junk = .ok (true,d') ∧ Created d d' name size i s ∧
      Mounted fs d' := by
  rcases Create_ok h hm name h₀ h₁ junk with ⟨_,hrefused⟩ | hcreated
  · have howned : (owned d).length = 5 := by
      rw [owned,Inventory.total_congr fun j hj => share_of_none (hempty j hj)]
      simp [Inventory.total,h.systemOk.length_system]
    rcases hrefused with ⟨j,s,hj,he⟩ | hfull | hspace
    · rw [hempty j hj] at he
      cases he
    · exact absurd (hempty 0 (by decide)) (hfull 0 (by decide))
    · rw [howned] at hspace
      simp only [NumSectors,SectorSize,MaxFileSize,NumDirect] at hspace h₁
      omega
  · exact hcreated

end Create

/-- `d'` is `d` without the file of entry `i`. -/
structure Removed (d d' : Disk) (i : ℕ) : Prop where
  fsck : Fsck d'
  entries : ∀ j, j < NumDirEntries → entry d' j = if j = i then none else entry d j
  headers : ∀ j s k, j < NumDirEntries → entry d j = some (s,k) → d' s.toNat = d s.toNat
  marks : ∀ n, Marked d' n ↔ Marked d n ∧ n ∉ share d i

/-- The disk that `Remove` leaves. -/
theorem removed (h : Fsck d) (hi : i < NumDirEntries) {t : Buffer} {m : Bitmap}
    (ht : ∀ j, j < NumDirEntries → Directory.entry t j = if j = i then none else entry d j)
    (hm : ∀ n, n < NumSectors → (m.bit n = true ↔ Marked d n ∧ n ∉ share d i))
    (hr : Rewritten d d' t m) : Removed d d' i := by
  have hsok := h.systemOk
  have hentries : ∀ j, j < NumDirEntries →
      entry d' j = if j = i then none else entry d j := by
    intro j hj
    rw [hr.entry_eq hsok hj,ht j hj]
  have hheaders : ∀ j s k, j < NumDirEntries → entry d j = some (s,k) →
      d' s.toNat = d s.toNat := by
    intro j s k hj he
    exact hr.frame_system (h.header_system hj he)
  have hothers : ∀ j, j < NumDirEntries → j ≠ i → share d' j = share d j := by
    intro j hj hne
    refine share_congr ?_ fun s' k he => hheaders j s' k hj he
    rw [hentries j hj,if_neg hne]
  have hold : ∀ j e, j < NumDirEntries → entry d' j = some e → entry d j = some e := by
    intro j e hj he
    rw [hentries j hj] at he
    by_cases hji : j = i
    · simp [hji] at he
    · rwa [if_neg hji] at he
  have hmarks : ∀ n, Marked d' n ↔ Marked d n ∧ n ∉ share d i := by
    intro n
    rw [hr.marked_iff hsok]
    constructor
    · rintro ⟨hlt,hbit⟩
      exact (hm n hlt).mp hbit
    · intro hn
      exact ⟨hn.1.1,(hm n hn.1.1).mpr hn⟩
  have hsectors : Inventory.Exact (Marked d') (owned d') := by
    rw [owned,hr.system_eq hsok]
    refine h.sectors.release hi (share_of_none ?_) hothers hmarks
    rw [hentries i hi,if_pos rfl]
  have hnames : NamesDistinct d' := by
    intro j l s₁ s₂ k hj hl hej hel
    exact namesDistinct_iff.mpr h.names j l s₁ s₂ k hj hl (hold j _ hj hej) (hold l _ hl hel)
  refine ⟨⟨(hr.systemOk hsok).freeMap,(hr.systemOk hsok).directory,fun j s k hj he => ?_,hsectors,
    namesDistinct_iff.mp hnames⟩,hentries,hheaders,hmarks⟩
  have he' := hold j _ hj he
  rw [hheaders j s k hj he']
  exact h.header j s k hj he'

/-- `Remove` writes the two files of the file system and nothing else. -/
theorem Remove_rewrites (h : Fsck d) (hm : Mounted fs d) (name : Buffer) (junk : ℕ → Buffer) :
    (fs.Remove d name junk = .ok (false,d) ∧
      ∀ j s, j < NumDirEntries → entry d j ≠ some (s,Directory.key name)) ∨
    ∃ d' i s t m, fs.Remove d name junk = .ok (true,d') ∧ i < NumDirEntries ∧
      entry d i = some (s,Directory.key name) ∧ Removed d d' i ∧ Mounted fs d' ∧
      Rewritten d d' t m := by
  obtain ⟨t,hdir,ht⟩ := readDirectory_ok h.systemOk hm junk
  rcases Directory.Find_ok ⟨NumDirEntries,t⟩ name with ⟨i,s,hi,he,hindex,hfind⟩ | ⟨hnew,_,hfind⟩
  · rw [ht i hi] at he
    have hs := h.sector_lt hi he
    have hhdr := (h.header i s _ hi he).2
    have hshare : share d i = s.toNat :: data (d s.toNat) := share_of_entry he
    have howned : ∀ n ∈ share d i, Marked d n := fun n hn =>
      (h.sectors.marked_iff n).mpr (Inventory.mem_total.mpr (Or.inr ⟨i,hi,hn⟩))
    obtain ⟨m,hmap,hbits,hmark⟩ := readMap_ok h.systemOk hm (junk 2)
    have hfetch : FetchFrom d s = .ok (d s.toNat) := by
      rw [← hs.2]
      exact FetchFrom_ok d hs.1
    obtain ⟨m₁,hrun₁,hn₁,hbit₁⟩ := Deallocate_ok hhdr hbits fun n hn =>
      (hmark n (hhdr.data_lt n hn)).mpr (howned n (by rw [hshare]; exact List.mem_cons_of_mem _ hn))
    obtain ⟨m₂,hrun₂,hn₂,hbit₂⟩ := Bitmap.Clear_ok (m := m₁) (n := s.toNat)
      (by rw [hn₁,hbits]; exact hs.1)
    rw [hs.2] at hrun₂
    obtain ⟨t',hrun₃,ht'⟩ := Directory.Remove_ok ⟨NumDirEntries,t⟩ hindex
    obtain ⟨d₁,d',hw₁,hw₂,hr⟩ := flush_map_directory h.systemOk hm
      (hn₂.trans (hn₁.trans hbits)) t' (junk 3) (junk 4) (junk 5) (junk 6) (junk 7) (junk 8)
    have hne : ¬ s = -1 := by omega
    refine Or.inr ⟨d',i,s,t',m₂,?_,hi,he,removed h hi ?_ ?_ hr,hr.mounted h.systemOk hm,hr⟩
    · refine bind_ok.mpr ⟨_,hdir,?_⟩
      simp only [hfind,if_neg hne,hrun₃]
      exact bind_ok.mpr ⟨_,hfetch,bind_ok.mpr ⟨_,hmap,bind_ok.mpr ⟨_,hrun₁,bind_ok.mpr
        ⟨_,hrun₂,bind_ok.mpr ⟨_,hw₁,bind_ok.mpr ⟨_,hw₂,rfl⟩⟩⟩⟩⟩⟩
    · intro j hj
      rw [ht',ht j hj]
    · intro n hn
      rw [hbit₂,hshare,List.mem_cons,not_or,← hmark n hn]
      by_cases hns : n = s.toNat
      · simp [hns]
      · rw [if_neg hns,hbit₁]
        simp [hns]
  · refine Or.inl ⟨bind_ok.mpr ⟨_,hdir,?_⟩,fun j s hj => ht j hj ▸ hnew j s hj⟩
    simp only [hfind,if_pos]
    rfl

/-- `Remove` frees the sectors of the file with that name, if there is one. -/
theorem Remove_ok (h : Fsck d) (hm : Mounted fs d) (name : Buffer) (junk : ℕ → Buffer) :
    (fs.Remove d name junk = .ok (false,d) ∧
      ∀ j s, j < NumDirEntries → entry d j ≠ some (s,Directory.key name)) ∨
    ∃ d' i s, fs.Remove d name junk = .ok (true,d') ∧ i < NumDirEntries ∧
      entry d i = some (s,Directory.key name) ∧ Removed d d' i ∧ Mounted fs d' := by
  rcases Remove_rewrites h hm name junk with hno | ⟨d',i,s,_,_,hrun,hi,he,hr,hm',_⟩
  · exact Or.inl hno
  · exact Or.inr ⟨d',i,s,hrun,hi,he,hr,hm'⟩

/-- `Open` reads the header of the file with that name, if there is one. -/
theorem Open_ok (h : Fsck d) (hm : Mounted fs d) (name : Buffer) (junk : ℕ → Buffer) :
    (fs.Open d name junk = .ok none ∧
      ∀ j s, j < NumDirEntries → entry d j ≠ some (s,Directory.key name)) ∨
    ∃ i s, fs.Open d name junk = .ok (some ⟨d s.toNat,0⟩) ∧ i < NumDirEntries ∧
      entry d i = some (s,Directory.key name) := by
  obtain ⟨t,hdir,ht⟩ := readDirectory_ok h.systemOk hm junk
  rcases Directory.Find_ok ⟨NumDirEntries,t⟩ name with ⟨i,s,hi,he,_,hfind⟩ | ⟨hnew,_,hfind⟩
  · rw [ht i hi] at he
    have hs := h.sector_lt hi he
    have hfetch : FetchFrom d s = .ok (d s.toNat) := by
      rw [← hs.2]
      exact FetchFrom_ok d hs.1
    have hpos : s ≥ 0 := by omega
    refine Or.inr ⟨i,s,?_,hi,he⟩
    simp only [Open,hdir,hfind,if_pos hpos,OpenFile.new,hfetch,bind,Except.bind,pure,Except.pure]
  · refine Or.inl ⟨?_,fun j s hj => ht j hj ▸ hnew j s hj⟩
    simp only [Open,hdir,hfind,bind,Except.bind]
    rfl

/-- The sector of the header of the file with the given name, or `-1`. -/
def lookup (fs : FileSystem) (d : Disk) (name : Buffer) (junk : ℕ → Buffer) :
    Except Fault ℤ := do
  let directory ← fs.readDirectory d junk
  return directory.Find name

theorem lookup_ok (h : Fsck d) (hm : Mounted fs d) (name : Buffer) (junk : ℕ → Buffer) :
    ∃ s, fs.lookup d name junk = .ok s ∧
      ∀ j s', j < NumDirEntries → entry d j = some (s',Directory.key name) → s' = s := by
  obtain ⟨t,hdir,ht⟩ := readDirectory_ok h.systemOk hm junk
  refine ⟨_,bind_ok.mpr ⟨_,hdir,rfl⟩,fun j s' hj he => ?_⟩
  rcases Directory.Find_ok ⟨NumDirEntries,t⟩ name with ⟨i,s,hi,hi',_,hfind⟩ | ⟨hnew,_,_⟩
  · rw [ht i hi] at hi'
    have hij := namesDistinct_iff.mpr h.names i j s s' _ hi hj hi' he
    rw [← hij,hi'] at he
    cases he
    exact hfind.symm
  · rw [← ht j hj] at he
    exact absurd he (hnew j s' hj)

section Format

/-- Allocating on a bitmap whose marks are known, with room for the whole file. -/
theorem allocate_exact {m : Bitmap} {l : List ℕ} (hm : m.numBits = NumSectors)
    (hx : Inventory.Exact (fun n => n < NumSectors ∧ m.bit n = true) l) (junk : Buffer)
    (size : ℤ) (h₀ : 0 ≤ size) (h₁ : size ≤ MaxFileSize)
    (hroom : l.length + (size + (SectorSize - 1)) / SectorSize ≤ NumSectors) :
    ∃ hdr m', Allocate junk m size = .ok (true,hdr,m') ∧ numBytes hdr = size ∧ Ok hdr ∧
      m'.numBits = NumSectors ∧
      Inventory.Exact (fun n => n < NumSectors ∧ m'.bit n = true) (l ++ data hdr) := by
  have hcard := Bitmap.card_clear hx.nodup (fun n hn => ((hx.marked_iff n).mpr hn).1)
    fun n hn => (and_iff_right hn).symm.trans (hx.marked_iff n)
  rcases Allocate_ok junk hm size h₀ h₁ with ⟨hfew,_⟩ | ⟨hdr,m',hrun,hbytes,hg⟩
  · rw [hm] at hfew
    omega
  refine ⟨hdr,m',hrun,hbytes,hg.ok,hg.numBits.trans hm,?_,fun n => ?_⟩
  · refine hx.nodup.append hg.ok.data_nodup fun n hn hin => ?_
    have hoff := hg.clear n hin
    rw [((hx.marked_iff n).mpr hn).2] at hoff
    cases hoff
  · rw [hg.marked,List.mem_append,← hx.marked_iff,and_or_left]
    exact or_congr_right (and_iff_right_of_imp (hg.ok.data_lt n))

/-- The bitmap on which `format` has marked the sectors of the two headers. -/
theorem new_marked (junk : ℕ → BitVec 32) :
    ∃ m₀ m₁ m₂, Bitmap.new NumSectors junk = .ok m₀ ∧ m₀.Mark FreeMapSector = .ok m₁ ∧
      m₁.Mark DirectorySector = .ok m₂ ∧ m₂.numBits = NumSectors ∧
      Inventory.Exact (fun n => n < NumSectors ∧ m₂.bit n = true)
        [FreeMapSector,DirectorySector] := by
  obtain ⟨m₀,hrun₀,hn₀,hbit₀⟩ := Bitmap.new_ok (n := NumSectors) (by decide) junk
  obtain ⟨m₁,hrun₁,hn₁,hbit₁⟩ := Bitmap.Mark_ok (m := m₀) (n := FreeMapSector)
    (by rw [hn₀]; decide)
  obtain ⟨m₂,hrun₂,hn₂,hbit₂⟩ := Bitmap.Mark_ok (m := m₁) (n := DirectorySector)
    (by rw [hn₁,hn₀]; decide)
  refine ⟨m₀,m₁,m₂,hrun₀,hrun₁,hrun₂,hn₂.trans (hn₁.trans hn₀),by decide,fun n => ?_⟩
  have hzero : n < NumSectors → m₀.bit n = false := fun hn => hbit₀ n (by
    rw [m₀.numWords_eq,hn₀]
    simp only [NumSectors] at hn ⊢
    omega)
  rw [hbit₂,hbit₁]
  by_cases h₀ : n = FreeMapSector
  · simp [h₀]
  · by_cases h₁ : n = DirectorySector
    · simp [h₁]
    · simpa [h₀,h₁] using hzero

/-- Rewriting the two system files with an empty table and exactly the system's marks gives
a consistent disk without files. -/
theorem formatted {e : Disk} {t : Buffer} {m : Bitmap} (hsok : SystemOk e)
    (hx : Inventory.Exact (fun n => n < NumSectors ∧ m.bit n = true) (system e))
    (hempty : ∀ j, j < NumDirEntries → Directory.entry t j = none)
    (hr : Rewritten e d' t m) :
    Fsck d' ∧ (∀ j, j < NumDirEntries → entry d' j = none) ∧ (owned d').length = 5 := by
  have hentries : ∀ j, j < NumDirEntries → entry d' j = none := by
    intro j hj
    rw [hr.entry_eq hsok hj]
    exact hempty j hj
  have howned : owned d' = system e := by
    rw [owned,hr.system_eq hsok,Inventory.total_congr fun j hj => share_of_none (hentries j hj)]
    simp [Inventory.total]
  have hrest := hr.systemOk hsok
  refine ⟨⟨hrest.freeMap,hrest.directory,?_,⟨howned ▸ hsok.nodup,fun n => ?_⟩,
    namesDistinct_iff.mp ?_⟩,hentries,howned ▸ hsok.length_system⟩
  · intro j s k hj he
    rw [hentries j hj] at he
    cases he
  · rw [hr.marked_iff hsok,hx.marked_iff,howned]
  · intro j l s s' k hj _ he
    rw [hentries j hj] at he
    cases he

/-- Formatting succeeds on every disk and leaves an empty, consistent file system. -/
theorem format_ok (d : Disk) (junk : ℕ → Buffer) :
    ∃ fs d', format d junk = .ok (fs,d') ∧ Fsck d' ∧ Mounted fs d' ∧
      (∀ i, i < NumDirEntries → entry d' i = none) ∧ (owned d').length = 5 := by
  obtain ⟨m₀,m₁,m₂,hrun₀,hrun₁,hrun₂,hbits₂,hx₂⟩ := new_marked fun i => word (junk 9) (4 * i)
  obtain ⟨mapHdr,m₃,hrun₃,hbytes₃,hok₃,hbits₃,hx₃⟩ := allocate_exact hbits₂ hx₂
    (junk 1) FreeMapFileSize (by decide) (by decide) (by decide)
  have hlen₃ := hok₃.length_data
  rw [hbytes₃] at hlen₃
  obtain ⟨dirHdr,m₄,hrun₄,hbytes₄,hok₄,hbits₄,hx₄⟩ := allocate_exact hbits₃ hx₃
    (junk 2) DirectoryFileSize (by decide) (by decide) (by
      rw [List.length_append,Nat.cast_add,hlen₃]
      decide)
  obtain ⟨b₀,hw₀,hb₀⟩ := WriteBack_ok mapHdr d (s := FreeMapSector) (by decide)
  obtain ⟨b₁,hw₁,hb₁⟩ := WriteBack_ok dirHdr (Function.update d FreeMapSector b₀)
    (s := DirectorySector) (by decide)
  let e := Function.update (Function.update d FreeMapSector b₀) DirectorySector b₁
  have he₀ := hok₃.congr (e FreeMapSector) hb₀
  have he₁ := hok₄.congr (e DirectorySector) hb₁
  have hsystem : system e = [FreeMapSector,DirectorySector] ++ data mapHdr ++ data dirHdr := by
    rw [system,he₀.2.1,he₁.2.1]
    rfl
  rw [← hsystem] at hx₄
  have hsok : SystemOk e :=
    ⟨⟨he₀.1,he₀.2.2.trans hbytes₃⟩,⟨he₁.1,he₁.2.2.trans hbytes₄⟩,hx₄.nodup⟩
  let fs : FileSystem := ⟨⟨e FreeMapSector,0⟩,⟨e DirectorySector,0⟩⟩
  have hmount : Mounted fs e := ⟨rfl,rfl⟩
  obtain ⟨d₁,d',hf₁,hf₂,hr⟩ := flush_map_directory hsok hmount hbits₄
    (Directory.new NumDirEntries (junk 0)).table (junk 3) (junk 4) (junk 5) (junk 6) (junk 7)
    (junk 8)
  obtain ⟨hfsck,hentries,hlength⟩ := formatted hsok hx₄
    (fun j hj => Directory.entry_new NumDirEntries (junk 0) hj) hr
  refine ⟨fs,d',?_,hfsck,hr.mounted hsok hmount,hentries,hlength⟩
  have hfetch₀ := FetchFrom_ok e (s := FreeMapSector) (by decide)
  have hfetch₁ := FetchFrom_ok e (s := DirectorySector) (by decide)
  have hopen₀ : OpenFile.new e FreeMapSector = .ok fs.freeMapFile :=
    bind_ok.mpr ⟨_,hfetch₀,rfl⟩
  have hopen₁ : OpenFile.new e DirectorySector = .ok fs.directoryFile :=
    bind_ok.mpr ⟨_,hfetch₁,rfl⟩
  refine bind_ok.mpr ⟨m₀,hrun₀,bind_ok.mpr ⟨m₁,hrun₁,bind_ok.mpr ⟨m₂,hrun₂,?_⟩⟩⟩
  refine bind_ok.mpr ⟨_,hrun₃,check_bind_ok.mpr ⟨rfl,?_⟩⟩
  refine bind_ok.mpr ⟨_,hrun₄,check_bind_ok.mpr ⟨rfl,?_⟩⟩
  refine bind_ok.mpr ⟨_,hw₀,bind_ok.mpr ⟨e,hw₁,?_⟩⟩
  refine bind_ok.mpr ⟨_,hopen₀,bind_ok.mpr ⟨_,hopen₁,?_⟩⟩
  exact bind_ok.mpr ⟨d₁,hf₁,bind_ok.mpr ⟨d',hf₂,rfl⟩⟩

end Format

end FileSystem
end NachOS
