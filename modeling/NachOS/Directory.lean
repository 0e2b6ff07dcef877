import NachOS.OpenFile

/-! `Directory` and `PersistentBitmap` (filesys/directory.cc, filesys/pbitmap.cc).  The
table is the array of bytes that is read from and written to its file: entry `i` is
`inUse` at offset `20 * i`, `sector` at `20 * i + 4` and `name[10]` at `20 * i + 8`. -/
namespace NachOS

open StateMachine Memory FileHeader OpenFile

abbrev FileNameMaxLen : ℕ := 9

/-- `sizeof(DirectoryEntry)` -/
abbrev entrySize : ℕ := 20

structure Directory where
  tableSize : ℕ
  table : Buffer

namespace Directory

def inUse (t : Buffer) (i : ℕ) : Bool := t (entrySize * i) != 0#8

def sector (t : Buffer) (i : ℕ) : ℤ := int t (entrySize * i + 4)

/-- The offset of `table[i].name`. -/
def nameOffset (i : ℕ) : ℕ := entrySize * i + 8

/-- The loop of the constructor that frees entries `0` to `n - 1`. -/
def freeEntries (t : Buffer) : ℕ → Buffer
  | 0 => t
  | n + 1 => Function.update (freeEntries t n) (entrySize * n) 0#8

/-- `junk` is what the new table contains. -/
def new (size : ℕ) (junk : Buffer) : Directory := ⟨size,freeEntries junk size⟩

def FetchFrom (dir : Directory) (file : OpenFile) (d : Disk) (buf : Buffer) :
    Except Fault Directory := do
  let (_,table) ← file.ReadAt d dir.table 0 ((dir.tableSize * entrySize : ℕ) : ℤ) (0 : ℕ) buf
  return { dir with table := table }

def WriteBack (dir : Directory) (file : OpenFile) (d : Disk) (buf buf₁ buf₂ : Buffer) :
    Except Fault Disk := do
  let (_,d) ← file.WriteAt d dir.table ((dir.tableSize * entrySize : ℕ) : ℤ) (0 : ℕ) buf buf₁ buf₂
  return d

/-- The loop of `FindIndex` from entry `i` on, with `n` entries to go. -/
def findIndex (t name : Buffer) (i : ℕ) : ℕ → ℤ
  | 0 => -1
  | n + 1 =>
    if inUse t i ∧ strncmp t name (nameOffset i) 0 FileNameMaxLen = 0 then i
    else findIndex t name (i + 1) n

def FindIndex (dir : Directory) (name : Buffer) : ℤ := findIndex dir.table name 0 dir.tableSize

def Find (dir : Directory) (name : Buffer) : ℤ :=
  let i := dir.FindIndex name
  if i ≠ -1 then sector dir.table i.toNat else -1

/-- The loop of `Add` from entry `i` on, with `n` entries to go. -/
def add (t name : Buffer) (newSector : ℤ) (i : ℕ) : ℕ → Bool × Buffer
  | 0 => (false,t)
  | n + 1 =>
    if inUse t i then add t name newSector (i + 1) n
    else
      let t := Function.update t (entrySize * i) 1#8
      let t := strncpy t (nameOffset i) name 0 FileNameMaxLen
      (true,setInt t (entrySize * i + 4) newSector)

def Add (dir : Directory) (name : Buffer) (newSector : ℤ) : Bool × Directory :=
  if dir.FindIndex name ≠ -1 then (false,dir)
  else
    let (success,table) := add dir.table name newSector 0 dir.tableSize
    (success,{ dir with table := table })

def Remove (dir : Directory) (name : Buffer) : Bool × Directory :=
  let i := dir.FindIndex name
  if i = -1 then (false,dir)
  else (true,{ dir with table := Function.update dir.table (entrySize * i.toNat) 0#8 })

/-! The table as a partial function from indices to sectors and names. -/

/-- Entry `i`, if it is in use: the sector of the header, and the name as far as the
directory compares it. -/
def entry (t : Buffer) (i : ℕ) : Option (ℤ × List Byte) :=
  if inUse t i then some (sector t i,cString t (nameOffset i) FileNameMaxLen) else none

/-- The name of a request as far as the directory compares it. -/
def key (name : Buffer) : List Byte := cString name 0 FileNameMaxLen

variable {t t' name : Buffer} {i n : ℕ} {s : ℤ}

theorem entry_congr (h : ∀ k, entrySize * i ≤ k → k < entrySize * i + entrySize → t k = t' k) :
    entry t i = entry t' i := by
  simp only [entrySize] at h
  have huse : inUse t i = inUse t' i := by
    simp only [inUse,entrySize]
    rw [h (20 * i) (by omega) (by omega)]
  have hsector : sector t i = sector t' i :=
    int_congr fun k _ _ => h k (by simp only [entrySize] at *; omega)
      (by simp only [entrySize] at *; omega)
  have hname : cString t (nameOffset i) FileNameMaxLen =
      cString t' (nameOffset i) FileNameMaxLen := by
    refine cString_congr fun m hm => ?_
    simp only [nameOffset,entrySize,FileNameMaxLen] at hm ⊢
    exact h _ (by omega) (by omega)
  simp only [entry,huse,hsector,hname]

theorem entry_eq_some {k : List Byte} : entry t i = some (s,k) ↔
    inUse t i = true ∧ sector t i = s ∧ cString t (nameOffset i) FileNameMaxLen = k := by
  by_cases h : inUse t i = true <;> simp [entry,h]

theorem freeEntries_at (t : Buffer) (n : ℕ) :
    ∀ i, i < n → freeEntries t n (entrySize * i) = 0#8 := by
  induction n with
  | zero => intro i hi; omega
  | succ n ih =>
    intro i hi
    simp only [freeEntries]
    by_cases he : i = n
    · simp [he]
    · rw [Function.update_of_ne (by simp only [entrySize]; omega)]
      exact ih i (by omega)

/-- A new directory is empty. -/
theorem entry_new (size : ℕ) (junk : Buffer) (hi : i < size) :
    entry (new size junk).table i = none := by
  simp [entry,inUse,new,freeEntries_at junk size i hi]

theorem findIndex_ok (t name : Buffer) (i n : ℕ) :
    (∃ j s, i ≤ j ∧ j < i + n ∧ entry t j = some (s,key name) ∧ findIndex t name i n = j) ∨
    ((∀ j s, i ≤ j → j < i + n → entry t j ≠ some (s,key name)) ∧
      findIndex t name i n = -1) := by
  induction n generalizing i with
  | zero => exact Or.inr ⟨fun j s _ _ => by omega,rfl⟩
  | succ n ih =>
    by_cases hm : inUse t i = true ∧ strncmp t name (nameOffset i) 0 FileNameMaxLen = 0
    · refine Or.inl ⟨i,sector t i,le_rfl,by omega,?_,if_pos hm⟩
      exact entry_eq_some.mpr ⟨hm.1,rfl,(strncmp_eq_zero _ _ _ _ _).mp hm.2⟩
    · have hnext : findIndex t name i (n + 1) = findIndex t name (i + 1) n := if_neg hm
      rw [hnext]
      rcases ih (i + 1) with ⟨j,s,h₁,h₂,he,hf⟩ | ⟨hall,hf⟩
      · exact Or.inl ⟨j,s,by omega,by omega,he,hf⟩
      · refine Or.inr ⟨fun j s h₁ h₂ he => ?_,hf⟩
        by_cases hj : j = i
        · subst hj
          obtain ⟨huse,_,hname⟩ := entry_eq_some.mp he
          exact hm ⟨huse,(strncmp_eq_zero _ _ _ _ _).mpr hname⟩
        · exact hall j s (by omega) (by omega) he

/-- `Find` returns the sector of an entry with that name, or `-1` if there is none. -/
theorem Find_ok (dir : Directory) (name : Buffer) :
    (∃ j s, j < dir.tableSize ∧ entry dir.table j = some (s,key name) ∧
      dir.FindIndex name = j ∧ dir.Find name = s) ∨
    ((∀ j s, j < dir.tableSize → entry dir.table j ≠ some (s,key name)) ∧
      dir.FindIndex name = -1 ∧ dir.Find name = -1) := by
  rcases findIndex_ok dir.table name 0 dir.tableSize with ⟨j,s,_,hj,he,hf⟩ | ⟨hall,hf⟩
  · have hindex : dir.FindIndex name = j := hf
    have hsector := (entry_eq_some.mp he).2.1
    refine Or.inl ⟨j,s,by omega,he,hindex,?_⟩
    simp only [Find,hindex]
    rw [if_pos (by omega),Int.toNat_natCast,hsector]
  · have hindex : dir.FindIndex name = -1 := hf
    refine Or.inr ⟨fun j s hj => hall j s (by omega) (by omega),hindex,?_⟩
    simp [Find,hindex]

/-- The entry written by `Add`. -/
theorem entry_added (t name : Buffer) (i : ℕ) (h₁ : -2 ^ 31 ≤ s) (h₂ : s < 2 ^ 31) (j : ℕ) :
    entry (setInt (strncpy (Function.update t (entrySize * i) 1#8) (nameOffset i) name 0
      FileNameMaxLen) (entrySize * i + 4) s) j =
      if j = i then some (s,key name) else entry t j := by
  by_cases hj : j = i
  · subst hj
    rw [if_pos rfl,entry_eq_some]
    refine ⟨?_,int_setInt _ _ h₁ h₂,?_⟩
    · rw [inUse,setInt_out _ _ (by omega),
        strncpy_out _ _ _ _ _ (by simp only [nameOffset,entrySize]; omega)]
      simp
    · rw [key,← cString_strncpy (Function.update t (entrySize * j) 1#8) (nameOffset j) name 0]
      refine cString_congr fun m _ => setInt_out _ _ ?_
      simp only [nameOffset,entrySize]
      omega
  · rw [if_neg hj]
    refine entry_congr fun k h₁ h₂ => ?_
    simp only [entrySize] at h₁ h₂
    rw [setInt_out _ _ (by simp only [entrySize]; omega),
      strncpy_out _ _ _ _ _ (by simp only [nameOffset,entrySize,FileNameMaxLen]; omega),
      Function.update_of_ne (by simp only [entrySize]; omega)]

theorem add_ok (t name : Buffer) (h₁ : -2 ^ 31 ≤ s) (h₂ : s < 2 ^ 31) (i n : ℕ) :
    (∃ j t', i ≤ j ∧ j < i + n ∧ entry t j = none ∧ add t name s i n = (true,t') ∧
      ∀ l, entry t' l = if l = j then some (s,key name) else entry t l) ∨
    ((∀ j, i ≤ j → j < i + n → entry t j ≠ none) ∧ add t name s i n = (false,t)) := by
  induction n generalizing i with
  | zero => exact Or.inr ⟨fun j _ _ => by omega,rfl⟩
  | succ n ih =>
    by_cases huse : inUse t i = true
    · have hnext : add t name s i (n + 1) = add t name s (i + 1) n := if_pos huse
      rw [hnext]
      rcases ih (i + 1) with ⟨j,t',hj₁,hj₂,hrest⟩ | ⟨hall,hf⟩
      · exact Or.inl ⟨j,t',by omega,by omega,hrest⟩
      · refine Or.inr ⟨fun j hj₁ hj₂ => ?_,hf⟩
        by_cases hj : j = i
        · simp [hj,entry,huse]
        · exact hall j (by omega) (by omega)
    · exact Or.inl ⟨i,_,le_rfl,by omega,by simp [entry,huse],if_neg huse,
        entry_added t name i h₁ h₂⟩

/-- `Add` of a new name takes a free entry, if there is one. -/
theorem Add_ok (dir : Directory) (h₁ : -2 ^ 31 ≤ s) (h₂ : s < 2 ^ 31)
    (hnew : dir.FindIndex name = -1) :
    (∃ i t', i < dir.tableSize ∧ entry dir.table i = none ∧
      dir.Add name s = (true,⟨dir.tableSize,t'⟩) ∧
      ∀ j, entry t' j = if j = i then some (s,key name) else entry dir.table j) ∨
    ((∀ i, i < dir.tableSize → entry dir.table i ≠ none) ∧ dir.Add name s = (false,dir)) := by
  rcases add_ok dir.table name h₁ h₂ 0 dir.tableSize with
    ⟨i,t',_,hi,hnone,ha,he⟩ | ⟨hall,ha⟩
  · exact Or.inl ⟨i,t',by omega,hnone,by simp [Add,hnew,ha],he⟩
  · exact Or.inr ⟨fun i hi => hall i (by omega) (by omega),by simp [Add,hnew,ha]⟩

/-- `Remove` frees the entry that `FindIndex` returns. -/
theorem Remove_ok (dir : Directory) (hfound : dir.FindIndex name = i) :
    ∃ t', dir.Remove name = (true,⟨dir.tableSize,t'⟩) ∧
      ∀ j, entry t' j = if j = i then none else entry dir.table j := by
  refine ⟨Function.update dir.table (entrySize * i) 0#8,?_,fun j => ?_⟩
  · simp only [Remove,hfound,Int.toNat_natCast]
    exact if_neg (by omega)
  · by_cases hj : j = i
    · simp [hj,entry,inUse]
    · rw [if_neg hj]
      refine entry_congr fun k _ _ => Function.update_of_ne ?_ _ _
      simp only [entrySize] at *
      omega

/-! Reading and writing the whole table. -/

variable {dir : Directory} {file : OpenFile}

theorem FetchFrom_bytes (dir : Directory) (h : Ok file.hdr) (d : Disk) (buf : Buffer)
    (hlen : ((dir.tableSize * entrySize : ℕ) : ℤ) ≤ numBytes file.hdr) :
    ∃ t, dir.FetchFrom file d buf = .ok ⟨dir.tableSize,t⟩ ∧
      ∀ k, k < dir.tableSize * entrySize → t k = byteAt d file.hdr k := by
  have hmax := h.length_le
  simp only [MaxFileSize,NumDirect,SectorSize] at hmax
  have hread := ReadAt_ok h d dir.table 0 (n := (dir.tableSize * entrySize : ℕ)) (p := 0) buf
    (by omega)
  rw [FileLength,transferred_of_le (by omega) hlen] at hread
  refine ⟨_,bind_ok.mpr ⟨_,hread,rfl⟩,fun k hk => ?_⟩
  simp only [Int.toNat_natCast]
  rw [bcopy_in _ _ _ (by omega)]
  simp

theorem FetchFrom_ok (dir : Directory) (h : Ok file.hdr) (d : Disk) (buf : Buffer)
    (hlen : ((dir.tableSize * entrySize : ℕ) : ℤ) ≤ numBytes file.hdr) :
    ∃ t, dir.FetchFrom file d buf = .ok ⟨dir.tableSize,t⟩ ∧
      ∀ i, i < dir.tableSize → entry t i = entry (byteAt d file.hdr) i := by
  obtain ⟨t,hfetch,hbytes⟩ := FetchFrom_bytes dir h d buf hlen
  refine ⟨t,hfetch,fun i hi => entry_congr fun k h₁ h₂ => hbytes k ?_⟩
  simp only [entrySize] at h₁ h₂ ⊢
  omega

theorem WriteBack_bytes (dir : Directory) (h : Ok file.hdr) (d : Disk) (buf buf₁ buf₂ : Buffer)
    (hlen : ((dir.tableSize * entrySize : ℕ) : ℤ) ≤ numBytes file.hdr) :
    ∃ d', dir.WriteBack file d buf buf₁ buf₂ = .ok d' ∧
      (∀ s, s ∉ data file.hdr → d' s = d s) ∧
      ∀ k, k < dir.tableSize * entrySize → byteAt d' file.hdr k = dir.table k := by
  have hmax := h.length_le
  simp only [MaxFileSize,NumDirect,SectorSize] at hmax
  obtain ⟨⟨c,d'⟩,hwrite,_,hw⟩ := WriteAt_ok h d dir.table
    (n := (dir.tableSize * entrySize : ℕ)) (p := 0) buf buf₁ buf₂ (by omega)
  rw [FileLength,transferred_of_le (by omega) hlen] at hw
  refine ⟨d',bind_ok.mpr ⟨_,hwrite,rfl⟩,fun s hs => hw.frame_data hs,fun k hk => ?_⟩
  rw [hw.content k (by omega)]
  simp only [Int.toNat_natCast]
  rw [if_pos (by omega)]
  rfl

theorem WriteBack_ok (dir : Directory) (h : Ok file.hdr) (d : Disk) (buf buf₁ buf₂ : Buffer)
    (hlen : ((dir.tableSize * entrySize : ℕ) : ℤ) ≤ numBytes file.hdr) :
    ∃ d', dir.WriteBack file d buf buf₁ buf₂ = .ok d' ∧
      (∀ s, s ∉ data file.hdr → d' s = d s) ∧
      ∀ i, i < dir.tableSize → entry (byteAt d' file.hdr) i = entry dir.table i := by
  obtain ⟨d',hwrite,hframe,hbytes⟩ := WriteBack_bytes dir h d buf buf₁ buf₂ hlen
  refine ⟨d',hwrite,hframe,fun i hi => entry_congr fun k h₁ h₂ => hbytes k ?_⟩
  simp only [entrySize] at h₁ h₂ ⊢
  omega

end Directory

namespace PersistentBitmap

/-- The constructor that reads the map from `file`. -/
def new (file : OpenFile) (d : Disk) (numItems : ℤ) (buf : Buffer) : Except Fault Bitmap := do
  let m ← Bitmap.new numItems fun i => word buf (4 * i)
  let (_,map) ← file.ReadAt d m.bytes 0 ((m.numWords * 4 : ℕ) : ℤ) (0 : ℕ) buf
  return Bitmap.ofBytes m.numBits map

def WriteBack (m : Bitmap) (file : OpenFile) (d : Disk) (buf buf₁ buf₂ : Buffer) :
    Except Fault Disk := do
  let (_,d) ← file.WriteAt d m.bytes ((m.numWords * 4 : ℕ) : ℤ) (0 : ℕ) buf buf₁ buf₂
  return d

/-- Bit `n` of a map that is stored in the given bytes. -/
def bit (b : Buffer) (n : ℕ) : Bool := (b (n / 8)).getLsbD (n % 8)

variable {file : OpenFile}

theorem bytes_of_map {m : Bitmap} (h : m.numBits = NumSectors) :
    m.numWords * 4 = NumSectors / 8 := by
  rw [m.numWords_eq,h]
  rfl

theorem new_ok (h : Ok file.hdr) (d : Disk) (buf : Buffer)
    (hlen : numBytes file.hdr = (NumSectors / 8 : ℕ)) :
    ∃ m, new file d NumSectors buf = .ok m ∧ m.numBits = NumSectors ∧
      ∀ n, n < NumSectors → m.bit n = bit (byteAt d file.hdr) n := by
  obtain ⟨m,hm,hn,_⟩ := Bitmap.new_ok (n := NumSectors) (by decide) fun i => word buf (4 * i)
  have hwords := bytes_of_map hn
  have hread := ReadAt_ok h d m.bytes 0 (n := (NumSectors / 8 : ℕ)) (p := 0) buf (by decide)
  rw [show FileLength file.hdr = (NumSectors / 8 : ℕ) from hlen,
    transferred_all (by omega)] at hread
  rw [← hwords] at hread
  refine ⟨_,bind_ok.mpr ⟨m,hm,bind_ok.mpr ⟨_,hread,rfl⟩⟩,hn,fun n hlt => ?_⟩
  simp only [NumSectors] at hlt
  rw [Bitmap.bit_ofBytes,hwords,Int.toNat_natCast,
    bcopy_in _ _ _ (by simp only [NumSectors]; omega)]
  simp [bit]

theorem WriteBack_ok (h : Ok file.hdr) (d : Disk) (buf buf₁ buf₂ : Buffer) {m : Bitmap}
    (hm : m.numBits = NumSectors) (hlen : numBytes file.hdr = (NumSectors / 8 : ℕ)) :
    ∃ d', WriteBack m file d buf buf₁ buf₂ = .ok d' ∧
      (∀ s, s ∉ data file.hdr → d' s = d s) ∧
      ∀ n, n < NumSectors → bit (byteAt d' file.hdr) n = m.bit n := by
  have hwords := bytes_of_map hm
  obtain ⟨⟨c,d'⟩,hwrite,_,hw⟩ := WriteAt_ok h d m.bytes
    (n := (NumSectors / 8 : ℕ)) (p := 0) buf buf₁ buf₂ (by decide)
  rw [show FileLength file.hdr = (NumSectors / 8 : ℕ) from hlen,
    transferred_all (by omega)] at hw
  rw [← hwords] at hwrite
  refine ⟨d',bind_ok.mpr ⟨_,hwrite,rfl⟩,fun s hs => hw.frame_data hs,fun n hlt => ?_⟩
  simp only [NumSectors] at hlt hlen
  rw [bit,hw.content (n / 8) (by omega),Int.toNat_natCast,
    if_pos (by simp only [NumSectors]; omega)]
  exact m.getLsbD_bytes n

end PersistentBitmap
end NachOS
