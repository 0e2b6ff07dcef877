import NachOS.DiskCreate

/-! The disk file system as its users see it: names with an array of bytes each.  As long as no
call is made that the store has no meaning for, every run of the code from a formatted disk, with
mounts at any time, is a run of that store. -/
namespace NachOS
namespace FileSystem

open StateMachine Memory FileHeader OpenFile FileArray

/-! The code, with what its calls return. -/

inductive Answer
  | success (b : Bool) | read (count : ℤ) (into : Buffer) | wrote (count : ℤ) | done

/-- One call, as the code carries it out.  The open files of a file that is removed stay. -/
def perform (s : State) : Action → Except Fault (Answer × State)
  | .create name initialSize junk => do
    let (success,disk) ← s.fs.Create s.disk name initialSize junk
    return (.success success,{ s with disk := disk })
  | .remove name junk => do
    let (success,disk) ← s.fs.Remove s.disk name junk
    return (.success success,{ s with disk := disk })
  | .openFile h name junk => do
    let sector ← s.fs.lookup s.disk name junk
    let f ← s.fs.Open s.disk name junk
    return (.success f.isSome,
      { s with files := Function.update s.files h (f.map fun f => (sector,f)) })
  | .remount => do
    let fs ← mount s.disk
    return (.done,{ s with fs := fs })
  | .readAt h into numBytes position buf => do
    let (_,f) ← s.file h
    let (count,into) ← f.ReadAt s.disk into 0 numBytes position buf
    return (.read count into,s)
  | .writeAt h src numBytes position buf buf₁ buf₂ => do
    let (_,f) ← s.file h
    let (count,disk) ← f.WriteAt s.disk src numBytes position buf buf₁ buf₂
    return (.wrote count,{ s with disk := disk })
  | .read h into numBytes buf => do
    let (sector,f) ← s.file h
    let (count,into,f) ← f.Read s.disk into 0 numBytes buf
    return (.read count into,{ s with files := Function.update s.files h (some (sector,f)) })
  | .write h src numBytes buf buf₁ buf₂ => do
    let (sector,f) ← s.file h
    let (count,disk,f) ← f.Write s.disk src numBytes buf buf₁ buf₂
    return (.wrote count,
      { s with disk := disk,files := Function.update s.files h (some (sector,f)) })
  | .seek h position => do
    let (sector,f) ← s.file h
    return (.done,{ s with files := Function.update s.files h (some (sector,f.Seek position)) })

/-! The store. -/

/-- The names in use, as far as names are compared, the bytes of their files, and for each
open file the name it was opened under and its position. -/
structure Volume where
  names : Finset (List Byte)
  contents : List Byte → List Byte
  files : ℕ → Option (List Byte × ℤ)

namespace Volume

def empty : Volume := ⟨∅,fun _ => [],fun _ => none⟩

/-- The sectors that a file of this size takes, with its header. -/
def sectors (size : ℕ) : ℕ := 1 + (size + (SectorSize - 1)) / SectorSize

/-- All sectors in use; five are taken by the free map and the directory. -/
def used (v : Volume) : ℕ := 5 + ∑ k ∈ v.names,sectors (v.contents k).length

/-- There is a directory entry and there are sectors for another file. -/
def HasRoom (v : Volume) (size : ℕ) : Prop :=
  v.names.card < NumDirEntries ∧ v.used + sectors size ≤ NumSectors

def write (v : Volume) (k src : List Byte) (p : ℕ) : Volume :=
  { v with contents := Function.update v.contents k (FileArray.writeAt (v.contents k) src p) }

def move (v : Volume) (h : ℕ) (k : List Byte) (p : ℤ) : Volume :=
  { v with files := Function.update v.files h (some (k,p)) }

/-- How many of the bytes are stored: a file does not grow. -/
def fitting (v : Volume) (k src : List Byte) (p : ℕ) : ℕ :=
  (src.take ((v.contents k).length - p)).length

/-- The transfer is refused, or it does not start before the file and does not overflow. -/
def Within (v : Volume) (k : List Byte) (numBytes position : ℤ) : Prop :=
  numBytes ≤ 0 ∨ position ≥ (v.contents k).length ∨ 0 ≤ position ∧ position + numBytes < 2 ^ 31

/-- The calls that have a meaning for the store: a size is that of a file, the open file that
is used is one of a file that was not removed since, and a transfer does not start before it. -/
def Legal (v : Volume) : Action → Prop
  | .create _ size _ => 0 ≤ size ∧ size ≤ MaxFileSize
  | .readAt h _ n p _ => ∃ k q, v.files h = some (k,q) ∧ v.Within k n p
  | .writeAt h _ n p _ _ _ => ∃ k q, v.files h = some (k,q) ∧ v.Within k n p
  | .read h _ n _ => ∃ k p, v.files h = some (k,p) ∧ v.Within k n p
  | .write h _ n _ _ _ => ∃ k p, v.files h = some (k,p) ∧ v.Within k n p
  -- `position` is an `int`
  | .seek h p => (∃ k q, v.files h = some (k,q)) ∧ wrap p = p
  | .remove .. | .openFile .. | .remount => True

/-- What a call may answer, and the store after it.  The bytes of a new file are not
specified, only how many there are. -/
inductive Step (v : Volume) : Action → Answer → Volume → Prop
  | create {name : Buffer} {size : ℤ} {junk : ℕ → Buffer} {bs : List Byte}
      (new : Directory.key name ∉ v.names) (room : v.HasRoom size.toNat)
      (length : (bs.length : ℤ) = size) :
      Step v (.create name size junk) (.success true)
        { v with names := insert (Directory.key name) v.names
                 contents := Function.update v.contents (Directory.key name) bs }
  | refused {name : Buffer} {size : ℤ} {junk : ℕ → Buffer}
      (why : Directory.key name ∈ v.names ∨ ¬ v.HasRoom size.toNat) :
      Step v (.create name size junk) (.success false) v
  | remove {name : Buffer} {junk : ℕ → Buffer} (known : Directory.key name ∈ v.names) :
      Step v (.remove name junk) (.success true)
        { v with names := v.names.erase (Directory.key name)
                 files := fun h => (v.files h).filter fun f => f.1 ≠ Directory.key name }
  | unknown {name : Buffer} {junk : ℕ → Buffer} (new : Directory.key name ∉ v.names) :
      Step v (.remove name junk) (.success false) v
  | openFile {h : ℕ} {name : Buffer} {junk : ℕ → Buffer} (known : Directory.key name ∈ v.names) :
      Step v (.openFile h name junk) (.success true) (v.move h (Directory.key name) 0)
  | notFound {h : ℕ} {name : Buffer} {junk : ℕ → Buffer} (new : Directory.key name ∉ v.names) :
      Step v (.openFile h name junk) (.success false)
        { v with files := Function.update v.files h none }
  | remount : Step v .remount .done v
  | readAt {h : ℕ} {k : List Byte} {q n p : ℤ} {into buf : Buffer}
      (file : v.files h = some (k,q)) :
      Step v (.readAt h into n p buf)
        (.read (FileArray.readAt (v.contents k) n.toNat p.toNat).length
          (put (FileArray.readAt (v.contents k) n.toNat p.toNat) into)) v
  | writeAt {h : ℕ} {k : List Byte} {q n p : ℤ} {src buf buf₁ buf₂ : Buffer}
      (file : v.files h = some (k,q)) :
      Step v (.writeAt h src n p buf buf₁ buf₂)
        (.wrote (v.fitting k (bytes src n.toNat) p.toNat))
        (v.write k (bytes src n.toNat) p.toNat)
  | read {h : ℕ} {k : List Byte} {p n : ℤ} {into buf : Buffer} (file : v.files h = some (k,p)) :
      Step v (.read h into n buf)
        (.read (FileArray.readAt (v.contents k) n.toNat p.toNat).length
          (put (FileArray.readAt (v.contents k) n.toNat p.toNat) into))
        (v.move h k (p + (FileArray.readAt (v.contents k) n.toNat p.toNat).length))
  | write {h : ℕ} {k : List Byte} {p n : ℤ} {src buf buf₁ buf₂ : Buffer}
      (file : v.files h = some (k,p)) :
      Step v (.write h src n buf buf₁ buf₂)
        (.wrote (v.fitting k (bytes src n.toNat) p.toNat))
        ((v.write k (bytes src n.toNat) p.toNat).move h k
          (p + v.fitting k (bytes src n.toNat) p.toNat))
  | seek {h : ℕ} {k : List Byte} {q p : ℤ} (file : v.files h = some (k,q)) :
      Step v (.seek h p) .done (v.move h k p)

end Volume

/-! The store that a state of the code represents. -/

/-- Nothing is said about open files that the store does not have: their file was removed. -/
structure Represents (s : State) (v : Volume) : Prop where
  fsck : Fsck s.disk
  mounted : Mounted s.fs s.disk
  names : ∀ k, k ∈ v.names ↔ ∃ i sector, i < NumDirEntries ∧ entry s.disk i = some (sector,k)
  contents : ∀ i sector k, i < NumDirEntries → entry s.disk i = some (sector,k) →
    v.contents k = content s.disk (s.disk sector.toNat)
  files : ∀ h k q, v.files h = some (k,q) → ∃ i sector, i < NumDirEntries ∧
    entry s.disk i = some (sector,k) ∧ s.files h = some (sector,⟨s.disk sector.toNat,q⟩) ∧
      wrap q = q

variable {s t : State} {v w : Volume} {d d' : Disk} {i h : ℕ} {name : Buffer} {size : ℤ}

/-- The directory entries in use. -/
def inUse (d : Disk) : Finset ℕ := (Finset.range NumDirEntries).filter fun i => (entry d i).isSome

theorem mem_inUse : i ∈ inUse d ↔ i < NumDirEntries ∧ ∃ sector k, entry d i = some (sector,k) := by
  rw [inUse,Finset.mem_filter,Finset.mem_range,Option.isSome_iff_exists,Prod.exists]

/-- The name of a directory entry in use. -/
def nameOf (d : Disk) (i : ℕ) : List Byte := ((entry d i).map Prod.snd).getD []

theorem nameOf_eq {sector : ℤ} {k : List Byte} (he : entry d i = some (sector,k)) :
    nameOf d i = k := by
  rw [nameOf,he]
  rfl

theorem Fsck.nameOf_injOn (hd : Fsck d) : Set.InjOn (nameOf d) (inUse d) := by
  intro i hi j hj he
  obtain ⟨hi,a,k,hik⟩ := mem_inUse.mp hi
  obtain ⟨hj,b,l,hjl⟩ := mem_inUse.mp hj
  rw [nameOf_eq hik,nameOf_eq hjl] at he
  subst he
  exact namesDistinct_iff.mpr hd.names i j a b k hi hj hik hjl

/-- Different entries have their headers in different sectors. -/
theorem Fsck.entry_inj (hd : Fsck d) {j : ℕ} {sector : ℤ} {k l : List Byte}
    (hi : i < NumDirEntries) (hj : j < NumDirEntries) (hik : entry d i = some (sector,k))
    (hjl : entry d j = some (sector,l)) : i = j := by
  by_contra hne
  exact hd.sectors.share_share hi hj hne (mem_share hik (Or.inl rfl)) (mem_share hjl (Or.inl rfl))

theorem mem_names {k : List Byte} : k ∈ (inUse d).image (nameOf d) ↔
    ∃ i sector, i < NumDirEntries ∧ entry d i = some (sector,k) := by
  rw [Finset.mem_image]
  constructor
  · rintro ⟨i,hi,rfl⟩
    obtain ⟨hi,sector,k,he⟩ := mem_inUse.mp hi
    rw [nameOf_eq he]
    exact ⟨i,sector,hi,he⟩
  · rintro ⟨i,sector,hi,he⟩
    exact ⟨i,mem_inUse.mpr ⟨hi,sector,k,he⟩,nameOf_eq he⟩

/-- The directory entry with the given name. -/
def entryOf (d : Disk) (k : List Byte) : Option (ℤ × List Byte) :=
  (List.range NumDirEntries).findSome? fun i => (entry d i).filter fun e => e.2 = k

theorem Fsck.entryOf_eq (hd : Fsck d) {sector : ℤ} {k : List Byte} (hi : i < NumDirEntries)
    (he : entry d i = some (sector,k)) : entryOf d k = some (sector,k) := by
  cases hfind : entryOf d k with
  | none =>
    have hnone := List.findSome?_eq_none_iff.mp hfind i (List.mem_range.mpr hi)
    simp [he] at hnone
  | some e =>
    obtain ⟨j,hj,hfilter⟩ := List.exists_of_findSome?_eq_some hfind
    obtain ⟨hej,hk⟩ := Option.filter_eq_some_iff.mp hfilter
    obtain ⟨b,l⟩ := e
    obtain rfl : l = k := by simpa using hk
    have hji := namesDistinct_iff.mpr hd.names j i b sector l (List.mem_range.mp hj) hi hej he
    rw [← hej,hji,he]

/-- The store on a disk, before any file is opened. -/
def volume (d : Disk) : Volume where
  names := (inUse d).image (nameOf d)
  contents k := ((entryOf d k).map fun e => content d (d e.1.toNat)).getD []
  files _ := none

theorem volume_empty (h : ∀ i, i < NumDirEntries → entry d i = none) : volume d = Volume.empty := by
  have hnames : (inUse d).image (nameOf d) = ∅ := by
    refine Finset.eq_empty_of_forall_notMem fun k hk => ?_
    obtain ⟨i,sector,hi,he⟩ := mem_names.mp hk
    rw [h i hi] at he
    cases he
  have hentries : ∀ k, entryOf d k = none := fun k => List.findSome?_eq_none_iff.mpr fun i hi => by
    rw [h i (List.mem_range.mp hi)]
    rfl
  simp only [volume,hnames,hentries]
  rfl

namespace Represents

/-- Every consistent disk is a store. -/
theorem of_fsck (hd : Fsck s.disk) (hm : Mounted s.fs s.disk) : Represents s (volume s.disk) := by
  refine ⟨hd,hm,fun k => mem_names,fun i sector k hi he => ?_,nofun⟩
  simp only [volume,hd.entryOf_eq hi he]
  rfl

theorem names_eq (hr : Represents s v) : v.names = (inUse s.disk).image (nameOf s.disk) := by
  ext k
  rw [hr.names,mem_names]

theorem card_names (hr : Represents s v) : v.names.card = (inUse s.disk).card := by
  rw [hr.names_eq]
  exact Finset.card_image_of_injOn hr.fsck.nameOf_injOn

/-- The directory is full if all its entries are in use. -/
theorem full_iff (hr : Represents s v) :
    v.names.card < NumDirEntries ↔ ∃ i, i < NumDirEntries ∧ entry s.disk i = none := by
  have hsub : inUse s.disk ⊆ Finset.range NumDirEntries := Finset.filter_subset _ _
  rw [hr.card_names]
  constructor
  · intro hlt
    have hcard : (inUse s.disk).card < (Finset.range NumDirEntries).card := by
      rw [Finset.card_range]
      exact hlt
    obtain ⟨i,hi,hnot⟩ := Finset.exists_mem_notMem_of_card_lt_card hcard
    have hi := Finset.mem_range.mp hi
    refine ⟨i,hi,?_⟩
    by_contra hne
    obtain ⟨⟨sector,k⟩,he⟩ := Option.ne_none_iff_exists'.mp hne
    exact hnot (mem_inUse.mpr ⟨hi,sector,k,he⟩)
  · rintro ⟨i,hi,he⟩
    have hss : inUse s.disk ⊂ Finset.range NumDirEntries := by
      refine Finset.ssubset_iff_subset_ne.mpr ⟨hsub,fun heq => ?_⟩
      have hmem := Finset.mem_range.mpr hi
      rw [← heq] at hmem
      obtain ⟨_,sector,k,he'⟩ := mem_inUse.mp hmem
      rw [he] at he'
      cases he'
    have hcard := Finset.card_lt_card hss
    rwa [Finset.card_range] at hcard

/-- A file takes one sector for its header and those of its data. -/
theorem length_share (hr : Represents s v) {sector : ℤ} {k : List Byte} (hi : i < NumDirEntries)
    (he : entry s.disk i = some (sector,k)) :
    (share s.disk i).length = Volume.sectors (v.contents k).length := by
  have hok := (hr.fsck.header i sector k hi he).2
  have hlen := hok.length_data
  have hpos := hok.nonneg
  rw [share_of_entry he,List.length_cons,hr.contents i sector k hi he,length_content,Volume.sectors]
  simp only [SectorSize] at hlen ⊢
  omega

/-- The sectors in use are those that something on the disk refers to. -/
theorem used_eq (hr : Represents s v) : v.used = (owned s.disk).length := by
  have hsystem := hr.fsck.systemOk.length_system
  have hshares : ∑ i ∈ Finset.range NumDirEntries,(share s.disk i).length =
      ∑ k ∈ v.names,Volume.sectors (v.contents k).length := by
    rw [hr.names_eq,Finset.sum_image hr.fsck.nameOf_injOn,inUse,Finset.sum_filter]
    refine Finset.sum_congr rfl fun i hi => ?_
    have hi := Finset.mem_range.mp hi
    cases he : entry s.disk i with
    | none => simp [share_of_none he]
    | some e =>
      obtain ⟨sector,k⟩ := e
      rw [hr.length_share hi he,nameOf_eq he]
      rfl
  rw [Volume.used,← hshares,owned,Inventory.total,List.length_append,hsystem,List.length_flatMap]
  rfl

/-- `Create` refuses for the reasons that the store has. -/
theorem refused_iff (hr : Represents s v) (h₀ : 0 ≤ size) : Refused s.disk name size ↔
    Directory.key name ∈ v.names ∨ ¬ v.HasRoom size.toNat := by
  have hused := hr.used_eq
  have hspace :
      (NumSectors : ℤ) < (owned s.disk).length + 1 + (size + (SectorSize - 1)) / SectorSize ↔
      ¬ v.used + Volume.sectors size.toNat ≤ NumSectors := by
    simp only [Volume.sectors,NumSectors,SectorSize]
    omega
  rw [Refused,hspace,hr.names,Volume.HasRoom,not_and_or,hr.full_iff]
  refine or_congr Iff.rfl (or_congr ?_ Iff.rfl)
  push Not
  rfl

/-- A change of the disk that keeps the files of all entries but `i`. -/
theorem kept_files (hr : Represents s v) (hkept : ∀ j, j < NumDirEntries → j ≠ i → Kept s.disk d' j)
    {k : List Byte} {q : ℤ} (hv : v.files h = some (k,q))
    (hother : ∀ sector, entry s.disk i ≠ some (sector,k)) :
    ∃ j sector, j < NumDirEntries ∧ entry d' j = some (sector,k) ∧
      s.files h = some (sector,⟨d' sector.toNat,q⟩) ∧ wrap q = q := by
  obtain ⟨j,sector,hj,he,hf,hrange⟩ := hr.files h k q hv
  have hne : j ≠ i := by
    rintro rfl
    exact hother sector he
  have hk := hkept j hj hne
  exact ⟨j,sector,hj,hk.entry.trans he,by rw [hk.header sector k he]; exact hf,hrange⟩

/-- The store after `Create` made a file. -/
theorem created (hr : Represents s v) {n : ℕ} (hc : Created s.disk d' name size i n)
    (hm : Mounted s.fs d') : Represents { s with disk := d' }
      { v with names := insert (Directory.key name) v.names
               contents := Function.update v.contents (Directory.key name)
                 (content d' (d' n)) } := by
  have hkept : ∀ j, j < NumDirEntries → j ≠ i → Kept s.disk d' j :=
    fun j hj => hc.kept hr.fsck hj
  refine ⟨hc.fsck,hm,fun k => ?_,fun j sector k hj he => ?_,fun h k q hv => ?_⟩
  · rw [Finset.mem_insert,hr.names]
    constructor
    · rintro (rfl | ⟨j,sector,hj,he⟩)
      · exact ⟨i,n,hc.index,hc.entry_new⟩
      · have hne : j ≠ i := by
          rintro rfl
          rw [hc.free] at he
          cases he
        exact ⟨j,sector,hj,(hkept j hj hne).entry.trans he⟩
    · rintro ⟨j,sector,hj,he⟩
      rw [hc.entries j hj] at he
      split at he
      · cases he
        exact Or.inl rfl
      · exact Or.inr ⟨j,sector,hj,he⟩
  · rw [hc.entries j hj] at he
    split at he
    · cases he
      simp only [Function.update_self,Int.toNat_natCast]
    · rename_i hne
      have hk : k ≠ Directory.key name := by
        rintro rfl
        exact hc.new j sector hj he
      simp only [Function.update_of_ne hk,hr.contents j sector k hj he]
      exact ((hkept j hj hne).content sector k he).symm
  · refine hr.kept_files hkept hv fun sector he => ?_
    rw [hc.free] at he
    cases he

/-- `Create` refuses, or the store has a new file with some bytes. -/
theorem Create_cases (hr : Represents s v) (name : Buffer) (h₀ : 0 ≤ size)
    (h₁ : size ≤ MaxFileSize) (junk : ℕ → Buffer) :
    (s.fs.Create s.disk name size junk = .ok (false,s.disk) ∧
      (Directory.key name ∈ v.names ∨ ¬ v.HasRoom size.toNat)) ∨
    ∃ d' bs, s.fs.Create s.disk name size junk = .ok (true,d') ∧
      Directory.key name ∉ v.names ∧ v.HasRoom size.toNat ∧ (bs.length : ℤ) = size ∧
      Represents { s with disk := d' }
        { v with names := insert (Directory.key name) v.names
                 contents := Function.update v.contents (Directory.key name) bs } := by
  have hfsck := hr.fsck
  rcases Create_ok hfsck hr.mounted name h₀ h₁ junk with ⟨hno,hrefused⟩ | ⟨d',i,n,hyes,hc,hm⟩
  · exact Or.inl ⟨hno,(hr.refused_iff h₀).mp hrefused⟩
  · have hroom := not_or.mp (mt (hr.refused_iff h₀).mpr (hc.not_refused hfsck))
    have hlength : ((content d' (d' n)).length : ℤ) = size := by
      rw [length_content,hc.size]
      omega
    exact Or.inr ⟨d',_,hyes,hroom.1,not_not.mp hroom.2,hlength,hr.created hc hm⟩

theorem create (hr : Represents s v) (name : Buffer) (h₀ : 0 ≤ size) (h₁ : size ≤ MaxFileSize)
    (junk : ℕ → Buffer) : ∃ b t w, perform s (.create name size junk) = .ok (b,t) ∧
      v.Step (.create name size junk) b w ∧ Represents t w := by
  rcases hr.Create_cases name h₀ h₁ junk with ⟨hno,hwhy⟩ | ⟨d',bs,hyes,hnew,hroom,hlength,hr'⟩
  · exact ⟨.success false,s,v,bind_ok.mpr ⟨_,hno,rfl⟩,.refused hwhy,hr⟩
  · exact ⟨.success true,_,_,bind_ok.mpr ⟨_,hyes,rfl⟩,.create hnew hroom hlength,hr'⟩

/-- The store after `Remove` deleted a file. -/
theorem removed (hr : Represents s v) {sector : ℤ} (hi : i < NumDirEntries)
    (he : entry s.disk i = some (sector,Directory.key name))
    (hremoved : Removed s.disk d' i) (hm : Mounted s.fs d')
    (hframe : ∀ n, n ∉ system s.disk → d' n = s.disk n) :
    Represents { s with disk := d' }
      { v with names := v.names.erase (Directory.key name)
               files := fun h => (v.files h).filter fun f => f.1 ≠ Directory.key name } := by
  have hfsck := hr.fsck
  have hkept : ∀ j, j < NumDirEntries → j ≠ i → Kept s.disk d' j := by
    intro j hj hne
    refine hfsck.kept hj (by rw [hremoved.entries j hj,if_neg hne]) fun n hn => ?_
    exact hframe n (hfsck.sectors.share_base hj hn)
  -- an entry is kept exactly if its name is another one
  have hname : ∀ {j b k}, j < NumDirEntries → entry s.disk j = some (b,k) →
      (j = i ↔ k = Directory.key name) := by
    intro j b k hj hek
    constructor
    · rintro rfl
      rw [he] at hek
      cases hek
      rfl
    · rintro rfl
      exact namesDistinct_iff.mpr hfsck.names j i b sector _ hj hi hek he
  refine ⟨hremoved.fsck,hm,fun k => ?_,fun j b k hj hek => ?_,fun h k q hv => ?_⟩
  · rw [Finset.mem_erase,hr.names]
    constructor
    · rintro ⟨hk,j,b,hj,hek⟩
      have hne : j ≠ i := mt (hname hj hek).mp hk
      exact ⟨j,b,hj,(hkept j hj hne).entry.trans hek⟩
    · rintro ⟨j,b,hj,hek⟩
      rw [hremoved.entries j hj] at hek
      split at hek
      · cases hek
      · rename_i hne
        exact ⟨mt (hname hj hek).mpr hne,j,b,hj,hek⟩
  · rw [hremoved.entries j hj] at hek
    split at hek
    · cases hek
    · rename_i hne
      rw [hr.contents j b k hj hek]
      exact ((hkept j hj hne).content b k hek).symm
  · obtain ⟨hv,hk⟩ := Option.filter_eq_some_iff.mp hv
    have hk : k ≠ Directory.key name := by simpa using hk
    refine hr.kept_files hkept hv fun b hb => hk ?_
    rw [he] at hb
    cases hb
    rfl

theorem remove (hr : Represents s v) (name : Buffer) (junk : ℕ → Buffer) :
    ∃ b t w, perform s (.remove name junk) = .ok (b,t) ∧ v.Step (.remove name junk) b w ∧
      Represents t w := by
  rcases Remove_rewrites hr.fsck hr.mounted name junk with
    ⟨hno,hnew⟩ | ⟨d',i,sector,table,m,hyes,hi,he,hremoved,hm,hrewritten⟩
  · refine ⟨.success false,s,v,bind_ok.mpr ⟨_,hno,rfl⟩,.unknown ?_,hr⟩
    rw [hr.names]
    rintro ⟨j,sector,hj,he⟩
    exact hnew j sector hj he
  · exact ⟨.success true,_,_,bind_ok.mpr ⟨_,hyes,rfl⟩,
      .remove ((hr.names _).mpr ⟨i,sector,hi,he⟩),
      hr.removed hi he hremoved hm fun n => hrewritten.frame_system⟩

/-- An open file of entry `i` is put at position `q`. -/
theorem placed (hr : Represents s v) (h : ℕ) {sector q : ℤ} {k : List Byte}
    (hi : i < NumDirEntries) (he : entry s.disk i = some (sector,k)) (hq : wrap q = q) :
    Represents { s with
        files := Function.update s.files h (some (sector,⟨s.disk sector.toNat,q⟩)) }
      (v.move h k q) := by
  refine ⟨hr.fsck,hr.mounted,hr.names,hr.contents,fun g l p hg => ?_⟩
  by_cases hgh : g = h
  · simp only [Volume.move,hgh,Function.update_self,Option.some.injEq,Prod.mk.injEq] at hg
    obtain ⟨rfl,rfl⟩ := hg
    exact ⟨i,sector,hi,he,by simp [hgh],hq⟩
  · simp only [Volume.move,Function.update_of_ne hgh] at hg ⊢
    exact hr.files g l p hg

/-- `Open` finds the file of a known name, at its start. -/
theorem Open_known (hr : Represents s v) (hk : Directory.key name ∈ v.names)
    (junk : ℕ → Buffer) : ∃ i sector, i < NumDirEntries ∧
      entry s.disk i = some (sector,Directory.key name) ∧
      s.fs.lookup s.disk name junk = .ok sector ∧
      s.fs.Open s.disk name junk = .ok (some ⟨s.disk sector.toNat,0⟩) := by
  obtain ⟨sector,hlookup,hunique⟩ := lookup_ok hr.fsck hr.mounted name junk
  rcases Open_ok hr.fsck hr.mounted name junk with ⟨_,hnew⟩ | ⟨i,found,hyes,hi,he⟩
  · obtain ⟨i,b,hi,he⟩ := (hr.names _).mp hk
    exact absurd he (hnew i b hi)
  obtain rfl := hunique i found hi he
  exact ⟨i,found,hi,he,hlookup,hyes⟩

theorem Open_unknown (hr : Represents s v) (hk : Directory.key name ∉ v.names)
    (junk : ℕ → Buffer) : s.fs.Open s.disk name junk = .ok none := by
  rcases Open_ok hr.fsck hr.mounted name junk with ⟨hno,_⟩ | ⟨i,sector,_,hi,he⟩
  · exact hno
  · exact absurd ((hr.names _).mpr ⟨i,sector,hi,he⟩) hk

theorem openFile (hr : Represents s v) (h : ℕ) (name : Buffer) (junk : ℕ → Buffer) :
    ∃ b t w, perform s (.openFile h name junk) = .ok (b,t) ∧ v.Step (.openFile h name junk) b w ∧
      Represents t w := by
  by_cases hk : Directory.key name ∈ v.names
  · obtain ⟨i,sector,hi,he,hlookup,hyes⟩ := hr.Open_known hk junk
    exact ⟨.success true,_,_,bind_ok.mpr ⟨_,hlookup,bind_ok.mpr ⟨_,hyes,rfl⟩⟩,.openFile hk,
      hr.placed h hi he rfl⟩
  · obtain ⟨sector,hlookup,_⟩ := lookup_ok hr.fsck hr.mounted name junk
    have hno := hr.Open_unknown hk junk
    refine ⟨.success false,_,_,bind_ok.mpr ⟨_,hlookup,bind_ok.mpr ⟨_,hno,rfl⟩⟩,.notFound hk,
      hr.fsck,hr.mounted,hr.names,hr.contents,fun g k q hg => ?_⟩
    by_cases hgh : g = h
    · simp [hgh] at hg
    · simp only [Function.update_of_ne hgh] at hg ⊢
      exact hr.files g k q hg

/-- The disk is mounted again. -/
theorem mounted_again (hr : Represents s v) :
    ∃ fs, mount s.disk = .ok fs ∧ Represents { s with fs := fs } v := by
  obtain ⟨fs,hrun,hm⟩ := mount_ok s.disk
  exact ⟨fs,hrun,hr.fsck,hm,hr.names,hr.contents,hr.files⟩

theorem remount (hr : Represents s v) : ∃ b t w, perform s .remount = .ok (b,t) ∧
    v.Step .remount b w ∧ Represents t w := by
  obtain ⟨fs,hrun,hr'⟩ := hr.mounted_again
  exact ⟨.done,_,v,bind_ok.mpr ⟨_,hrun,rfl⟩,.remount,hr'⟩

/-- A transfer that is refused, or that starts inside the file. -/
theorem inFile_cases {f : OpenFile} {n p : ℤ} (hin : InFile f n p) :
    (n ≤ 0 ∨ p ≥ FileLength f.hdr) ∨ ∃ q : ℕ, p = q ∧ (q : ℤ) + n < 2 ^ 31 := by
  rcases hin with hn | hp | ⟨hp,hsum⟩
  · exact Or.inl (Or.inl hn)
  · exact Or.inl (Or.inr hp)
  · obtain ⟨q,rfl⟩ := Int.eq_ofNat_of_zero_le hp
    exact Or.inr ⟨q,rfl,hsum⟩

/-- Nothing is read by a request that is refused. -/
theorem readAt_refused {hdr : Buffer} {n p : ℤ} (hok : Ok hdr)
    (hreq : n ≤ 0 ∨ p ≥ FileLength hdr) :
    FileArray.readAt (content d hdr) n.toNat p.toNat = [] := by
  have hpos := hok.nonneg
  rcases hreq with hn | hp
  · simp [FileArray.readAt,Int.toNat_of_nonpos hn]
  · have hlen : (content d hdr).length ≤ p.toNat := by
      rw [length_content]
      exact Int.toNat_le_toNat hp
    simp [FileArray.readAt,List.drop_eq_nil_of_le hlen]

/-- Nothing is written by a request that is refused. -/
theorem writeAt_refused {hdr : Buffer} {n p : ℤ} (src : Buffer) (hok : Ok hdr)
    (hreq : n ≤ 0 ∨ p ≥ FileLength hdr) :
    FileArray.writeAt (content d hdr) (bytes src n.toNat) p.toNat = content d hdr ∧
      ((bytes src n.toNat).take ((content d hdr).length - p.toNat)).length = 0 := by
  have hpos := hok.nonneg
  rcases hreq with hn | hp
  · simp [FileArray.writeAt,Int.toNat_of_nonpos hn,bytes]
  · have hlen : (content d hdr).length ≤ p.toNat := by
      rw [length_content]
      exact Int.toNat_le_toNat hp
    have hle : (content d hdr).length ≤ p.toNat + (bytes src n.toNat).length := by omega
    simp only [FileArray.writeAt,Nat.sub_eq_zero_of_le hlen,List.take_zero,List.append_nil,
      List.take_of_length_le hlen,List.drop_eq_nil_of_le hle,List.length_nil,and_self]

/-- `ReadAt` delivers the bytes of the array. -/
theorem ReadAt_inFile {f : OpenFile} {n p : ℤ} (hok : Ok f.hdr) (hin : InFile f n p) (d : Disk)
    (into buf : Buffer) : f.ReadAt d into 0 n p buf =
      .ok (((FileArray.readAt (content d f.hdr) n.toNat p.toNat).length : ℤ),
        put (FileArray.readAt (content d f.hdr) n.toNat p.toNat) into) := by
  rcases inFile_cases hin with hreq | ⟨q,rfl,hsum⟩
  · rw [readAt_refused hok hreq]
    exact if_pos hreq
  · rw [ReadAt_ok hok d into 0 buf hsum,Int.toNat_natCast,readAt_content hok.nonneg,put_bytes,
      length_bytes,transferred_toNat hok.nonneg,count_eq hok.nonneg]

/-- `WriteAt` stores the bytes in the array, and touches no other sector. -/
theorem WriteAt_inFile {f : OpenFile} {n p : ℤ} (hok : Ok f.hdr) (hin : InFile f n p) (d : Disk)
    (src buf buf₁ buf₂ : Buffer) : ∃ d', f.WriteAt d src n p buf buf₁ buf₂ =
        .ok ((((bytes src n.toNat).take ((content d f.hdr).length - p.toNat)).length : ℤ),d') ∧
      content d' f.hdr = FileArray.writeAt (content d f.hdr) (bytes src n.toNat) p.toNat ∧
      ∀ m, m ∉ data f.hdr → d' m = d m := by
  rcases inFile_cases hin with hreq | ⟨q,rfl,hsum⟩
  · obtain ⟨hcontent,hcount⟩ := writeAt_refused (d := d) src hok hreq
    refine ⟨d,?_,hcontent.symm,fun _ _ => rfl⟩
    rw [hcount]
    exact if_pos hreq
  · obtain ⟨⟨c,d'⟩,hrun,hc,hw⟩ := WriteAt_ok hok d src buf buf₁ buf₂ hsum
    refine ⟨d',?_,content_written hok.nonneg hw,fun m => hw.frame_data⟩
    have hlen : (((bytes src n.toNat).take ((content d f.hdr).length - q)).length : ℤ) = c := by
      rw [List.length_take,length_bytes,length_content,Nat.min_comm,count_eq hok.nonneg]
      exact hc.symm
    rw [hrun,Int.toNat_natCast,hlen]

theorem inFile (hr : Represents s v) {sector n p : ℤ} {k : List Byte} (hi : i < NumDirEntries)
    (he : entry s.disk i = some (sector,k)) (hw : v.Within k n p) {f : OpenFile}
    (hhdr : f.hdr = s.disk sector.toNat) : InFile f n p := by
  have hlen : ((v.contents k).length : ℤ) = FileLength f.hdr := by
    rw [hr.contents i sector k hi he,length_content,hhdr]
    exact Int.toNat_of_nonneg (hr.fsck.header i sector k hi he).2.nonneg
  rwa [Volume.Within,hlen] at hw

/-- The store after a write. -/
theorem written (hr : Represents s v) {sector : ℤ} {k : List Byte} {f : OpenFile} {n p : ℤ}
    (hi : i < NumDirEntries) (he : entry s.disk i = some (sector,k))
    (hhdr : f.hdr = s.disk sector.toNat) (hin : InFile f n p) (src buf buf₁ buf₂ : Buffer) :
    ∃ d', f.WriteAt s.disk src n p buf buf₁ buf₂ =
        .ok ((v.fitting k (bytes src n.toNat) p.toNat : ℤ),d') ∧
      entry d' i = some (sector,k) ∧ d' sector.toNat = s.disk sector.toNat ∧
      Represents { s with disk := d' } (v.write k (bytes src n.toNat) p.toNat) := by
  have hfsck := hr.fsck
  have hok : Ok f.hdr := hhdr ▸ (hfsck.header i sector k hi he).2
  have hk : v.contents k = content s.disk f.hdr := hhdr ▸ hr.contents i sector k hi he
  obtain ⟨d',hrun,hcontent,hframe⟩ := WriteAt_inFile hok hin s.disk src buf buf₁ buf₂
  rw [hhdr] at hframe
  obtain ⟨hfsck',hentries,hheader⟩ := hfsck.write hi he hframe
  refine ⟨d',?_,(hentries i hi).trans he,hheader _ (Or.inr ⟨i,sector,k,hi,he,rfl⟩),hfsck',
    ⟨hr.mounted.freeMap.trans (hheader _ (Or.inl (Or.inl rfl))).symm,
      hr.mounted.directory.trans (hheader _ (Or.inl (Or.inr rfl))).symm⟩,
    fun l => ?_,fun j b l hj hel => ?_,fun g l q hg => ?_⟩
  · rw [hrun,Volume.fitting,hk]
  · rw [Volume.write,hr.names]
    refine exists_congr fun j => exists_congr fun b => and_congr_right fun hj => ?_
    rw [hentries j hj]
  · simp only at hel ⊢
    rw [hentries j hj] at hel
    have hheader' : d' b.toNat = s.disk b.toNat := hheader _ (Or.inr ⟨j,b,l,hj,hel,rfl⟩)
    by_cases hl : l = k
    · subst hl
      have hji := namesDistinct_iff.mpr hfsck.names j i b sector l hj hi hel he
      rw [hji,he] at hel
      cases hel
      simp only [Volume.write,Function.update_self]
      rw [hk,hheader',← hhdr]
      exact hcontent.symm
    · have hbs : b.toNat ≠ sector.toNat := by
        intro heq
        have hb := (hfsck.sector_lt hj hel).2
        have hsector := (hfsck.sector_lt hi he).2
        have hji := hfsck.entry_inj hj hi hel (by rw [he,← hsector,← heq,hb])
        rw [hji,he] at hel
        cases hel
        exact hl rfl
      simp only [Volume.write,Function.update_of_ne hl]
      rw [hr.contents j b l hj hel,hheader']
      refine (content_congr _ (hfsck.header j b l hj hel).2 fun a ha => hframe _ ?_).symm
      exact (hfsck.data_apart (Or.inr ⟨j,b,l,hj,hel,rfl⟩) (Or.inr ⟨i,sector,k,hi,he,rfl⟩)
        (mem_data.mpr ⟨a,ha,rfl⟩)).2 hbs
  · obtain ⟨j,b,hj,hel,hf,hrange⟩ := hr.files g l q hg
    refine ⟨j,b,hj,(hentries j hj).trans hel,?_,hrange⟩
    simp only [hheader _ (Or.inr ⟨j,b,l,hj,hel,rfl⟩)]
    exact hf

/-- What an open file delivers. -/
theorem read_eq (hr : Represents s v) {sector : ℤ} {k : List Byte} {f : OpenFile} {n p : ℤ}
    (hi : i < NumDirEntries) (he : entry s.disk i = some (sector,k))
    (hhdr : f.hdr = s.disk sector.toNat) (hin : InFile f n p) (into buf : Buffer) :
    f.ReadAt s.disk into 0 n p buf =
      .ok (((FileArray.readAt (v.contents k) n.toNat p.toNat).length : ℤ),
        put (FileArray.readAt (v.contents k) n.toNat p.toNat) into) := by
  rw [hr.contents i sector k hi he,← hhdr]
  exact ReadAt_inFile (hhdr ▸ (hr.fsck.header i sector k hi he).2) hin s.disk into buf

/-- A position moves by the bytes transferred without leaving the range of `int`. -/
theorem wrap_advance {f : OpenFile} {n p : ℤ} {c : ℕ} (hin : InFile f n p) (hp : wrap p = p)
    (hc : c ≤ n.toNat) (hlen : c ≤ (FileLength f.hdr).toNat - p.toNat) : wrap (p + c) = p + c := by
  by_cases hzero : c = 0
  · rw [hzero,Nat.cast_zero,add_zero,hp]
  · rcases inFile_cases hin with (hn | hp) | ⟨q,rfl,hsum⟩
    · omega
    · omega
    · exact wrap_of_range (by omega) (by omega)

section Transfers

variable {k : List Byte} {q n p : ℤ}

theorem readAt (hr : Represents s v) (hv : v.files h = some (k,q)) (hw : v.Within k n p)
    (into buf : Buffer) : ∃ b t w, perform s (.readAt h into n p buf) = .ok (b,t) ∧
      v.Step (.readAt h into n p buf) b w ∧ Represents t w := by
  obtain ⟨i,sector,hi,he,hf,_⟩ := hr.files h k q hv
  have hrun := hr.read_eq hi he rfl (hr.inFile hi he hw (f := ⟨_,q⟩) rfl) into buf
  exact ⟨_,s,v,bind_ok.mpr ⟨_,file_ok.mpr hf,bind_ok.mpr ⟨_,hrun,rfl⟩⟩,.readAt hv,hr⟩

theorem writeAt (hr : Represents s v) (hv : v.files h = some (k,q)) (hw : v.Within k n p)
    (src buf buf₁ buf₂ : Buffer) :
    ∃ b t w, perform s (.writeAt h src n p buf buf₁ buf₂) = .ok (b,t) ∧
      v.Step (.writeAt h src n p buf buf₁ buf₂) b w ∧ Represents t w := by
  obtain ⟨i,sector,hi,he,hf,_⟩ := hr.files h k q hv
  obtain ⟨d',hrun,_,_,hr'⟩ := hr.written hi he rfl (hr.inFile hi he hw (f := ⟨_,q⟩) rfl)
    src buf buf₁ buf₂
  exact ⟨_,_,_,bind_ok.mpr ⟨_,file_ok.mpr hf,bind_ok.mpr ⟨_,hrun,rfl⟩⟩,.writeAt hv,hr'⟩

theorem read (hr : Represents s v) (hv : v.files h = some (k,p)) (hw : v.Within k n p)
    (into buf : Buffer) : ∃ b t w, perform s (.read h into n buf) = .ok (b,t) ∧
      v.Step (.read h into n buf) b w ∧ Represents t w := by
  obtain ⟨i,sector,hi,he,hf,hrange⟩ := hr.files h k p hv
  have hin : InFile ⟨s.disk sector.toNat,p⟩ n p := hr.inFile hi he hw rfl
  have hrun := hr.read_eq hi he rfl hin into buf
  have hwrap : wrap (p + (FileArray.readAt (v.contents k) n.toNat p.toNat).length) =
      p + (FileArray.readAt (v.contents k) n.toNat p.toNat).length := by
    refine wrap_advance hin hrange ?_ ?_
    · simp [FileArray.readAt]
    · rw [hr.contents i sector k hi he]
      simp [FileArray.readAt,FileLength]
  refine ⟨_,_,_,bind_ok.mpr ⟨_,file_ok.mpr hf,bind_ok.mpr ⟨_,bind_ok.mpr ⟨_,hrun,rfl⟩,rfl⟩⟩,
    .read hv,?_⟩
  simp only [hwrap]
  exact hr.placed h hi he hwrap

theorem write (hr : Represents s v) (hv : v.files h = some (k,p)) (hw : v.Within k n p)
    (src buf buf₁ buf₂ : Buffer) :
    ∃ b t w, perform s (.write h src n buf buf₁ buf₂) = .ok (b,t) ∧
      v.Step (.write h src n buf buf₁ buf₂) b w ∧ Represents t w := by
  obtain ⟨i,sector,hi,he,hf,hrange⟩ := hr.files h k p hv
  have hin : InFile ⟨s.disk sector.toNat,p⟩ n p := hr.inFile hi he hw rfl
  obtain ⟨d',hrun,he',hheader,hr'⟩ := hr.written hi he rfl hin src buf buf₁ buf₂
  have hwrap : wrap (p + v.fitting k (bytes src n.toNat) p.toNat) =
      p + v.fitting k (bytes src n.toNat) p.toNat := by
    refine wrap_advance hin hrange ?_ ?_
    · simp [Volume.fitting]
    · rw [Volume.fitting,hr.contents i sector k hi he]
      simp [FileLength]
  refine ⟨_,_,_,bind_ok.mpr ⟨_,file_ok.mpr hf,bind_ok.mpr ⟨_,bind_ok.mpr ⟨_,hrun,rfl⟩,rfl⟩⟩,
    .write hv,?_⟩
  simp only [hwrap,← hheader]
  exact hr'.placed h hi he' hwrap

theorem seek (hr : Represents s v) (hv : v.files h = some (k,q)) (hp : wrap p = p) :
    ∃ b t w, perform s (.seek h p) = .ok (b,t) ∧ v.Step (.seek h p) b w ∧ Represents t w := by
  obtain ⟨i,sector,hi,he,hf,_⟩ := hr.files h k q hv
  exact ⟨_,_,_,bind_ok.mpr ⟨_,file_ok.mpr hf,rfl⟩,.seek hv,hr.placed h hi he hp⟩

end Transfers

/-- One call that has a meaning for the store succeeds, and the store allows what it answers. -/
theorem step (hr : Represents s v) (a : Action) (ha : v.Legal a) :
    ∃ b t w, perform s a = .ok (b,t) ∧ v.Step a b w ∧ Represents t w := by
  cases a with
  | create name size junk => exact hr.create name ha.1 ha.2 junk
  | remove name junk => exact hr.remove name junk
  | openFile h name junk => exact hr.openFile h name junk
  | remount => exact hr.remount
  | readAt h into n p buf =>
    obtain ⟨k,q,hv,hw⟩ := ha
    exact hr.readAt hv hw into buf
  | writeAt h src n p buf buf₁ buf₂ =>
    obtain ⟨k,q,hv,hw⟩ := ha
    exact hr.writeAt hv hw src buf buf₁ buf₂
  | read h into n buf =>
    obtain ⟨k,p,hv,hw⟩ := ha
    exact hr.read hv hw into buf
  | write h src n buf buf₁ buf₂ =>
    obtain ⟨k,p,hv,hw⟩ := ha
    exact hr.write hv hw src buf buf₁ buf₂
  | seek h p =>
    obtain ⟨⟨k,q,hv⟩,hp⟩ := ha
    exact hr.seek hv hp

theorem formatted (hs : Formatted s) : Represents s Volume.empty := by
  have hinv := inv_formatted hs
  obtain ⟨⟨d,junk,hrun⟩,_⟩ := hs
  obtain ⟨fs,disk,hrun',_,_,hempty,_⟩ := format_ok d junk
  obtain ⟨_,hdisk⟩ := Prod.mk.inj (Except.ok.inj (hrun.symm.trans hrun'))
  rw [← volume_empty (d := s.disk) (hdisk ▸ hempty)]
  exact of_fsck hinv.fsck hinv.mounted

end Represents

/-- The disk file system is a store of byte arrays under names.  On a formatted disk, with the
file system mounted again at any time, calls that have a meaning for the store all succeed: no
assertion fails, nothing outside of an object is accessed, and they answer as the store does. -/
theorem fileSystem_refines_volume (s : State) (hs : Formatted s) (calls : List Action)
    (hlegal : Meets Volume.Step Volume.Legal Volume.empty calls) :
    ∃ bs t v, answers perform s calls = .ok (bs,t) ∧ Allows Volume.Step Volume.empty calls bs v ∧
      Represents t v :=
  Allows.answers (fun _ _ a hr ha => hr.step a ha) (Represents.formatted hs) hlegal

/-- A file is written, and read after the disk was mounted anew. -/
def exampleCalls : List Action :=
  [.create (letter 97#8) 3 fun _ _ => 0#8,.openFile 0 (letter 97#8) fun _ _ => 1#8,
    .writeAt 0 (fun _ => 7#8) 5 1 (fun _ => 0#8) (fun _ => 0#8) fun _ => 0#8,.remount,
    .openFile 1 (letter 97#8) fun _ _ => 2#8,.readAt 1 (fun _ => 9#8) 5 1 fun _ => 0#8]

/-- The store with one file of the given bytes. -/
def oneFile (bs : List Byte) (files : ℕ → Option (List Byte × ℤ)) : Volume :=
  ⟨{Directory.key (letter 97#8)},Function.update (fun _ => []) (Directory.key (letter 97#8)) bs,
    files⟩

section Example

variable {b : Answer} {bs : List Byte} {files : ℕ → Option (List Byte × ℤ)} {junk : ℕ → Buffer}

theorem contents_oneFile : (oneFile bs files).contents (Directory.key (letter 97#8)) = bs := by
  simp [oneFile]

theorem step_create (hs : Volume.empty.Step (.create (letter 97#8) 3 junk) b v) :
    b = .success true ∧ ∃ bs, bs.length = 3 ∧ v = oneFile bs fun _ => none := by
  cases hs with
  | refused why =>
    refine absurd why (not_or.mpr ⟨Finset.notMem_empty _,not_not.mpr ⟨?_,?_⟩⟩)
    · decide
    · decide
  | create new room length => exact ⟨rfl,_,by exact_mod_cast length,rfl⟩

theorem step_open (hs : (oneFile bs files).Step (.openFile h (letter 97#8) junk) b v) :
    b = .success true ∧
      v = oneFile bs (Function.update files h (some (Directory.key (letter 97#8),0))) := by
  cases hs with
  | notFound new => exact absurd (Finset.mem_singleton_self _) new
  | openFile known => exact ⟨rfl,rfl⟩

/-- Two of the five bytes fit. -/
theorem step_write {src buf buf₁ buf₂ : Buffer} (hlen : bs.length = 3)
    (hf : files 0 = some (Directory.key (letter 97#8),0))
    (hs : (oneFile bs files).Step (.writeAt 0 src 5 1 buf buf₁ buf₂) b v) :
    b = .wrote 2 ∧ v = oneFile (bs.take 1 ++ [src 0,src 1]) files := by
  cases hs with
  | writeAt file =>
    cases hf.symm.trans file
    obtain ⟨x,y,z,rfl⟩ := List.length_eq_three.mp hlen
    refine ⟨?_,?_⟩
    · rw [Volume.fitting,contents_oneFile]
      rfl
    · rw [Volume.write,contents_oneFile]
      simp only [oneFile,Function.update_idem]
      rfl

theorem step_read {into buf : Buffer} (hf : files 1 = some (Directory.key (letter 97#8),0))
    (hs : (oneFile bs files).Step (.readAt 1 into 5 1 buf) b v) :
    b = .read ((bs.drop 1).take 5).length (put ((bs.drop 1).take 5) into) := by
  cases hs with
  | readAt file =>
    cases hf.symm.trans file
    rw [contents_oneFile]
    rfl

end Example

theorem exampleCalls_legal : Meets Volume.Step Volume.Legal Volume.empty exampleCalls := by
  refine ⟨⟨by decide,by decide⟩,fun b v hcreate => ?_⟩
  obtain ⟨rfl,bs,hlen,rfl⟩ := step_create hcreate
  refine ⟨trivial,fun b v hopen => ?_⟩
  obtain ⟨rfl,rfl⟩ := step_open hopen
  refine ⟨⟨_,0,rfl,Or.inr (Or.inr (by decide))⟩,fun b v hwrite => ?_⟩
  obtain ⟨rfl,rfl⟩ := step_write hlen rfl hwrite
  refine ⟨trivial,fun b v hremount => ?_⟩
  cases hremount
  refine ⟨trivial,fun b v hopen => ?_⟩
  obtain ⟨rfl,rfl⟩ := step_open hopen
  exact ⟨⟨_,0,rfl,Or.inr (Or.inr (by decide))⟩,fun _ _ _ => trivial⟩

/-- What was written before the mount is read after it. -/
theorem fileSystem_refines_volume_remounted : ∃ s t v, Formatted s ∧
    answers perform s exampleCalls = .ok ([.success true,.success true,.wrote 2,.done,
      .success true,.read 2 (put [7#8,7#8] fun _ => 9#8)],t) ∧ Represents t v := by
  obtain ⟨fs,d,hformat,_⟩ := format_ok (fun _ _ => 0#8) fun _ _ => 0#8
  have hs : Formatted ⟨d,fs,fun _ => none⟩ := ⟨⟨_,_,hformat⟩,rfl⟩
  obtain ⟨bs,t,v,hrun,hallows,hr⟩ := fileSystem_refines_volume _ hs _ exampleCalls_legal
  obtain _ | ⟨hcreate,hallows⟩ := hallows
  obtain ⟨rfl,bs,hlen,rfl⟩ := step_create hcreate
  obtain _ | ⟨hopen,hallows⟩ := hallows
  obtain ⟨rfl,rfl⟩ := step_open hopen
  obtain _ | ⟨hwrite,hallows⟩ := hallows
  obtain ⟨rfl,rfl⟩ := step_write hlen rfl hwrite
  obtain _ | ⟨hremount,hallows⟩ := hallows
  cases hremount
  obtain _ | ⟨hopen,hallows⟩ := hallows
  obtain ⟨rfl,rfl⟩ := step_open hopen
  obtain _ | ⟨hread,hallows⟩ := hallows
  obtain rfl := step_read rfl hread
  obtain _ | _ := hallows
  have hbytes : ((bs.take 1 ++ [7#8,7#8]).drop 1).take 5 = [7#8,7#8] := by
    simp [hlen]
  rw [hbytes] at hrun
  exact ⟨_,t,_,hs,hrun,hr⟩

end FileSystem
end NachOS
