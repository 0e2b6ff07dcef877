import NachOS.FileSystem
import NachOS.FileArray

/-! Runs of the disk file system from a formatted disk: files are created, removed,
opened, read and written in any order, and the file system is mounted again at any time.
The consistency of the disk is followed over whole runs. -/
namespace NachOS
namespace FileSystem

open StateMachine Memory FileHeader OpenFile

variable {d d' : Disk} {fs : FileSystem} {i n n' x : ℕ} {s : ℤ} {k : List Byte}

/-! The sectors of different files. -/

/-- `n` is the header sector of a file on the disk. -/
def Header (d : Disk) (n : ℕ) : Prop :=
  (n = FreeMapSector ∨ n = DirectorySector) ∨
    ∃ i s k, i < NumDirEntries ∧ entry d i = some (s,k) ∧ s.toNat = n

namespace Fsck

theorem header_ok (h : Fsck d) (hn : Header d n) : n < NumSectors ∧ Ok (d n) := by
  rcases hn with (rfl | rfl) | ⟨i,s,k,hi,he,rfl⟩
  · exact ⟨by decide,h.freeMap.1⟩
  · exact ⟨by decide,h.directory.1⟩
  · exact ⟨(h.sector_lt hi he).1,(h.header i s k hi he).2⟩

/-- The header and the data of one of the two files of the file system itself. -/
theorem mem_system (hn : n = FreeMapSector ∨ n = DirectorySector) (hx : x = n ∨ x ∈ data (d n)) :
    x ∈ system d := by
  rcases hn with rfl | rfl <;> rcases hx with rfl | hx <;> simp_all [system]

theorem mem_share (he : entry d i = some (s,k)) (hx : x = s.toNat ∨ x ∈ data (d s.toNat)) :
    x ∈ share d i := by
  rw [share_of_entry he]
  exact List.mem_cons.mpr hx

theorem system_apart (h : SystemOk d) (hn : n = FreeMapSector ∨ n = DirectorySector)
    (hn' : n' = FreeMapSector ∨ n' = DirectorySector) (hx : x ∈ data (d n)) :
    x ≠ n' ∧ (n ≠ n' → x ∉ data (d n')) := by
  have hheaders := h.headers hn'
  constructor
  · rintro rfl
    rcases hn with rfl | rfl
    · exact hheaders.1 hx
    · exact hheaders.2 hx
  · intro hne hx'
    rcases hn with rfl | rfl <;> rcases hn' with rfl | rfl
    · exact hne rfl
    · exact h.disjoint hx hx'
    · exact h.disjoint hx' hx
    · exact hne rfl

/-- A data sector of one file is no header, and no data sector of another file. -/
theorem data_apart (h : Fsck d) (hn : Header d n) (hn' : Header d n') (hx : x ∈ data (d n)) :
    x ≠ n' ∧ (n ≠ n' → x ∉ data (d n')) := by
  have hboth : ¬ (x = n' ∨ x ∈ data (d n')) → x ≠ n' ∧ (n ≠ n' → x ∉ data (d n')) := by
    intro hno
    rw [not_or] at hno
    exact ⟨hno.1,fun _ => hno.2⟩
  rcases hn with hn | ⟨i,s,k,hi,he,rfl⟩ <;> rcases hn' with hn' | ⟨j,s',k',hj,he',rfl⟩
  · exact system_apart h.systemOk hn hn' hx
  · refine hboth fun hin => h.sectors.share_base hj (mem_share he' hin) ?_
    exact mem_system hn (Or.inr hx)
  · refine hboth fun hin => h.sectors.share_base hi (mem_share he (Or.inr hx)) ?_
    exact mem_system hn' hin
  · by_cases hij : i = j
    · subst hij
      cases he.symm.trans he'
      have hnodup := h.sectors.share_nodup hi
      rw [share_of_entry he,List.nodup_cons] at hnodup
      exact ⟨fun e => hnodup.1 (e ▸ hx),fun hne => absurd rfl hne⟩
    · refine hboth fun hin => ?_
      exact h.sectors.share_share hi hj hij (mem_share he (Or.inr hx)) (mem_share he' hin)

/-- The files of a consistent disk are those that open files treat as byte arrays. -/
theorem wellFormed (h : Fsck d) :
    FileArray.WellFormed (fun f : { n // Header d n } => f.1) d := by
  refine ⟨fun f => h.header_ok f.2,fun f g a ha => ?_,fun f g hne a b ha hb he => ?_⟩
  · exact (h.data_apart f.2 g.2 (mem_data.mpr ⟨a,ha,rfl⟩)).1
  · have hne' : f.1 ≠ g.1 := fun e => hne (Subtype.ext e)
    exact (h.data_apart f.2 g.2 (mem_data.mpr ⟨a,ha,rfl⟩)).2 hne' (mem_data.mpr ⟨b,hb,he.symm⟩)

/-- The marks are stored in the sectors of the file system itself. -/
theorem marked_congr (h : Fsck d) (hsystem : ∀ n ∈ system d, d' n = d n) :
    Marked d' n ↔ Marked d n := by
  refine and_congr_right fun hn => ?_
  rw [hsystem FreeMapSector (by simp [system]),bit_of_data h.freeMap
    (fun n hn => hsystem n (mem_system (Or.inl rfl) (Or.inr hn))) hn]

/-- Consistency does not depend on the data sectors of the files in the directory. -/
theorem congr (h : Fsck d) (hsystem : ∀ n ∈ system d, d' n = d n)
    (hheaders : ∀ j s k, j < NumDirEntries → entry d j = some (s,k) → d' s.toNat = d s.toNat) :
    Fsck d' ∧ ∀ j, j < NumDirEntries → entry d' j = entry d j := by
  have h₀ : d' FreeMapSector = d FreeMapSector := hsystem _ (by simp [system])
  have h₁ : d' DirectorySector = d DirectorySector := hsystem _ (by simp [system])
  have hentries : ∀ j, j < NumDirEntries → entry d' j = entry d j := by
    intro j hj
    rw [entry,entry,table,table,h₁]
    exact entry_of_data h.directory (fun n hn => hsystem n (mem_system (Or.inr rfl) (Or.inr hn))) hj
  have hshares : ∀ j, j < NumDirEntries → share d' j = share d j := fun j hj =>
    share_congr (hentries j hj) fun s k he => hheaders j s k hj he
  have howned : owned d' = owned d := by
    rw [owned,owned,Inventory.total_congr hshares,system,system,h₀,h₁]
  have hnames : NamesDistinct d' := by
    intro j l s₁ s₂ k hj hl hej hel
    rw [hentries j hj] at hej
    rw [hentries l hl] at hel
    exact namesDistinct_iff.mpr h.names j l s₁ s₂ k hj hl hej hel
  refine ⟨⟨h₀ ▸ h.freeMap,h₁ ▸ h.directory,fun j s k hj he => ?_,?_,
    namesDistinct_iff.mp hnames⟩,hentries⟩
  · rw [hentries j hj] at he
    rw [hheaders j s k hj he]
    exact h.header j s k hj he
  · refine ⟨howned ▸ h.sectors.nodup,fun n => ?_⟩
    rw [howned,h.marked_congr hsystem]
    exact h.sectors.marked_iff n

/-- A write to a file of the directory keeps the disk consistent. -/
theorem write (h : Fsck d) (hi : i < NumDirEntries) (he : entry d i = some (s,k))
    (hw : ∀ n, n ∉ data (d s.toNat) → d' n = d n) :
    Fsck d' ∧ (∀ j, j < NumDirEntries → entry d' j = entry d j) ∧
      ∀ n, Header d n → d' n = d n := by
  have hfile : Header d s.toNat := Or.inr ⟨i,s,k,hi,he,rfl⟩
  have hheader : ∀ n, Header d n → d' n = d n := by
    intro n hn
    exact hw n fun hx => (h.data_apart hfile hn hx).1 rfl
  have hsystem : ∀ n ∈ system d, d' n = d n := by
    intro n hn
    exact hw n fun hx => h.sectors.share_base hi (mem_share he (Or.inr hx)) hn
  have hkeep := h.congr hsystem fun j s k hj he => hheader _ (Or.inr ⟨j,s,k,hj,he,rfl⟩)
  exact ⟨hkeep.1,hkeep.2,hheader⟩

end Fsck

/-! The machine. -/

/-- The disk, the file system and the open files of its users.  With an open file goes
the sector its header was read from. -/
structure State where
  disk : Disk
  fs : FileSystem
  files : ℕ → Option (ℤ × OpenFile)

inductive Action
  | create (name : Buffer) (initialSize : ℤ) (junk : ℕ → Buffer)
  | remove (name : Buffer) (junk : ℕ → Buffer)
  | openFile (h : ℕ) (name : Buffer) (junk : ℕ → Buffer)
  | remount
  | readAt (h : ℕ) (into : Buffer) (numBytes position : ℤ) (buf : Buffer)
  | writeAt (h : ℕ) (src : Buffer) (numBytes position : ℤ) (buf buf₁ buf₂ : Buffer)
  | read (h : ℕ) (into : Buffer) (numBytes : ℤ) (buf : Buffer)
  | write (h : ℕ) (src : Buffer) (numBytes : ℤ) (buf buf₁ buf₂ : Buffer)
  | seek (h : ℕ) (position : ℤ)

/-- The open file `h`, unless its file has been removed. -/
def State.file (s : State) (h : ℕ) : Except Fault (ℤ × OpenFile) :=
  match s.files h with
  | none => .error .blocked
  | some f => .ok f

def step (s : State) : Action → Except Fault State
  | .create name initialSize junk => do
    require (0 ≤ initialSize ∧ initialSize ≤ MaxFileSize)
    let (_,disk) ← s.fs.Create s.disk name initialSize junk
    return { s with disk := disk }
  | .remove name junk => do
    let sector ← s.fs.lookup s.disk name junk
    let (_,disk) ← s.fs.Remove s.disk name junk
    -- the open files of the removed file are not used any more
    return { s with disk := disk,files := fun h => (s.files h).filter fun f => f.1 ≠ sector }
  | .openFile h name junk => do
    let sector ← s.fs.lookup s.disk name junk
    let f ← s.fs.Open s.disk name junk
    return { s with files := Function.update s.files h (f.map fun f => (sector,f)) }
  | .remount => do
    let fs ← mount s.disk
    return { s with fs := fs }
  | .readAt h into numBytes position buf => do
    let (_,f) ← s.file h
    let _ ← f.ReadAt s.disk into 0 numBytes position buf
    return s
  | .writeAt h src numBytes position buf buf₁ buf₂ => do
    let (_,f) ← s.file h
    let (_,disk) ← f.WriteAt s.disk src numBytes position buf buf₁ buf₂
    return { s with disk := disk }
  | .read h into numBytes buf => do
    let (sector,f) ← s.file h
    let (_,_,f) ← f.Read s.disk into 0 numBytes buf
    return { s with files := Function.update s.files h (some (sector,f)) }
  | .write h src numBytes buf buf₁ buf₂ => do
    let (sector,f) ← s.file h
    let (_,disk,f) ← f.Write s.disk src numBytes buf buf₁ buf₂
    return { s with disk := disk,files := Function.update s.files h (some (sector,f)) }
  | .seek h position => do
    let (sector,f) ← s.file h
    return { s with files := Function.update s.files h (some (sector,f.Seek position)) }

/-- A freshly formatted disk, whatever it contained. -/
def Formatted (s : State) : Prop :=
  (∃ d junk, format d junk = .ok (s.fs,s.disk)) ∧ s.files = fun _ => none

def machine : Machine State Action := ⟨Formatted,step⟩

/-- The request is refused, or it starts inside the file and does not overflow. -/
def InFile (f : OpenFile) (numBytes position : ℤ) : Prop :=
  numBytes ≤ 0 ∨ position ≥ FileLength f.hdr ∨ 0 ≤ position ∧ position + numBytes < 2 ^ 31

/-- The writes that stay in their file. -/
def WritesInFile (s : State) : Action → Prop
  | .writeAt h _ numBytes position _ _ _ =>
    ∀ f, s.files h = some f → InFile f.2 numBytes position
  | .write h _ numBytes _ _ _ =>
    ∀ f, s.files h = some f → InFile f.2 numBytes f.2.seekPosition
  | _ => True

structure Inv (s : State) : Prop where
  fsck : Fsck s.disk
  mounted : Mounted s.fs s.disk
  files : ∀ h sector f, s.files h = some (sector,f) →
    ∃ i k, i < NumDirEntries ∧ entry s.disk i = some (sector,k) ∧ f.hdr = s.disk sector.toNat

theorem file_ok {s : State} {h : ℕ} {f : ℤ × OpenFile} : s.file h = .ok f ↔ s.files h = some f := by
  rw [State.file]
  cases s.files h <;> simp

theorem inv_formatted {s : State} (h : Formatted s) : Inv s := by
  obtain ⟨⟨d,junk,hrun⟩,hfiles⟩ := h
  obtain ⟨fs,disk,hrun',hfsck,hm,_,_⟩ := format_ok d junk
  cases hrun.symm.trans hrun'
  refine ⟨hfsck,hm,fun h sector f hf => ?_⟩
  rw [hfiles] at hf
  cases hf

namespace Inv

variable {s t : State} {h : ℕ} {sector : ℤ} {f f' : OpenFile}

/-- Only the position of an open file changes. -/
theorem move (hs : Inv s) (hf : s.files h = some (sector,f)) (hhdr : f'.hdr = f.hdr) :
    Inv { s with files := Function.update s.files h (some (sector,f')) } := by
  refine ⟨hs.fsck,hs.mounted,fun h' sector' g hg => ?_⟩
  by_cases he : h' = h
  · simp only [he,Function.update_self,Option.some.injEq,Prod.mk.injEq] at hg
    obtain ⟨rfl,rfl⟩ := hg
    obtain ⟨i,k,hi,hentry,hdr⟩ := hs.files h sector f hf
    exact ⟨i,k,hi,hentry,hhdr.trans hdr⟩
  · simp only [Function.update_of_ne he] at hg
    exact hs.files h' sector' g hg

/-- An open file has the header of a file of the directory. -/
theorem hdr_ok (hs : Inv s) (hf : s.files h = some (sector,f)) : Ok f.hdr := by
  obtain ⟨i,k,hi,hentry,hdr⟩ := hs.files h sector f hf
  rw [hdr]
  exact (hs.fsck.header i sector k hi hentry).2

theorem create (hs : Inv s) {name : Buffer} {size : ℤ} {junk : ℕ → Buffer}
    (ht : step s (.create name size junk) = .ok t) : Inv t := by
  obtain ⟨hsize,ht⟩ := require_bind_ok.mp ht
  obtain ⟨⟨success,disk⟩,hrun,ht⟩ := bind_ok.mp ht
  cases ht
  rcases Create_ok hs.fsck hs.mounted name hsize.1 hsize.2 junk with
    ⟨hno,_⟩ | ⟨d',i,sec,hyes,hc,hm⟩
  · cases hno.symm.trans hrun
    exact hs
  · cases hyes.symm.trans hrun
    refine ⟨hc.fsck,hm,fun h sector f hf => ?_⟩
    obtain ⟨j,k,hj,hentry,hdr⟩ := hs.files h sector f hf
    have hne : j ≠ i := by
      rintro rfl
      rw [hc.free] at hentry
      cases hentry
    refine ⟨j,k,hj,?_,?_⟩
    · rw [hc.entries j hj,if_neg hne]
      exact hentry
    · rw [hdr]
      exact (hc.headers j sector k hj hentry).symm

theorem remove (hs : Inv s) {name : Buffer} {junk : ℕ → Buffer}
    (ht : step s (.remove name junk) = .ok t) : Inv t := by
  obtain ⟨found,hlookup,ht⟩ := bind_ok.mp ht
  obtain ⟨⟨success,disk⟩,hrun,ht⟩ := bind_ok.mp ht
  cases ht
  have hfiles : ∀ h sector f, (s.files h).filter (fun f => f.1 ≠ found) = some (sector,f) →
      s.files h = some (sector,f) ∧ sector ≠ found := by
    intro h sector f hf
    have hboth := Option.filter_eq_some_iff.mp hf
    exact ⟨hboth.1,by simpa using hboth.2⟩
  rcases Remove_ok hs.fsck hs.mounted name junk with ⟨hno,_⟩ | ⟨d',i,sec,hyes,hi,he,hr,hm⟩
  · cases hno.symm.trans hrun
    exact ⟨hs.fsck,hs.mounted,fun h sector f hf => hs.files h sector f (hfiles h sector f hf).1⟩
  · cases hyes.symm.trans hrun
    obtain ⟨found',hlookup',hunique⟩ := lookup_ok hs.fsck hs.mounted name junk
    cases hlookup'.symm.trans hlookup
    refine ⟨hr.fsck,hm,fun h sector f hf => ?_⟩
    obtain ⟨hf,hne⟩ := hfiles h sector f hf
    obtain ⟨j,k,hj,hentry,hdr⟩ := hs.files h sector f hf
    have hji : j ≠ i := by
      rintro rfl
      cases hentry.symm.trans he
      exact hne (hunique j _ hj he)
    refine ⟨j,k,hj,?_,?_⟩
    · rw [hr.entries j hj,if_neg hji]
      exact hentry
    · rw [hdr]
      exact (hr.headers j sector k hj hentry).symm

theorem openFile (hs : Inv s) {name : Buffer} {junk : ℕ → Buffer}
    (ht : step s (.openFile h name junk) = .ok t) : Inv t := by
  obtain ⟨found,hlookup,ht⟩ := bind_ok.mp ht
  obtain ⟨g,hrun,ht⟩ := bind_ok.mp ht
  cases ht
  refine ⟨hs.fsck,hs.mounted,fun h' sector f hf => ?_⟩
  by_cases he : h' = h
  · simp only [he,Function.update_self] at hf
    rcases Open_ok hs.fsck hs.mounted name junk with ⟨hno,_⟩ | ⟨i,sec,hyes,hi,hentry⟩
    · cases hno.symm.trans hrun
      cases hf
    · cases hyes.symm.trans hrun
      cases hf
      obtain ⟨found',hlookup',hunique⟩ := lookup_ok hs.fsck hs.mounted name junk
      cases hlookup'.symm.trans hlookup
      cases hunique i sec hi hentry
      exact ⟨i,_,hi,hentry,rfl⟩
  · simp only [Function.update_of_ne he] at hf
    exact hs.files h' sector f hf

theorem remount (hs : Inv s) (ht : step s .remount = .ok t) : Inv t := by
  obtain ⟨fs,hrun,ht⟩ := bind_ok.mp ht
  cases ht
  obtain ⟨fs',hrun',hm⟩ := mount_ok s.disk
  cases hrun'.symm.trans hrun
  exact ⟨hs.fsck,hm,hs.files⟩

/-- A write that is refused or stays in its file succeeds, and touches the data sectors
of that file only. -/
theorem write (hs : Inv s) (hf : s.files h = some (sector,f)) {numBytes position : ℤ}
    (hin : InFile f numBytes position) (src buf buf₁ buf₂ : Buffer) :
    ∃ r : ℤ × Disk, f.WriteAt s.disk src numBytes position buf buf₁ buf₂ = .ok r ∧
      Inv { s with disk := r.2 } ∧
      ∀ n, n ∉ data (s.disk sector.toNat) → r.2 n = s.disk n := by
  by_cases hreq : numBytes ≤ 0 ∨ position ≥ FileLength f.hdr
  · exact ⟨(0,s.disk),if_pos hreq,hs,fun _ _ => rfl⟩
  have hin' : 0 ≤ position ∧ position + numBytes < 2 ^ 31 := by
    rcases hin with h₁ | h₂ | h₃
    · exact absurd (Or.inl h₁) hreq
    · exact absurd (Or.inr h₂) hreq
    · exact h₃
  obtain ⟨p,rfl⟩ := Int.eq_ofNat_of_zero_le hin'.1
  obtain ⟨i,k,hi,hentry,hdr⟩ := hs.files h sector f hf
  have hok := (hs.fsck.header i sector k hi hentry).2
  rw [← hdr] at hok
  obtain ⟨r,hrun,_,hw⟩ := WriteAt_ok hok s.disk src buf buf₁ buf₂ hin'.2
  have hframe : ∀ n, n ∉ data (s.disk sector.toNat) → r.2 n = s.disk n := by
    intro n hn
    rw [← hdr] at hn
    exact hw.frame_data hn
  obtain ⟨hfsck,hentries,hheader⟩ := hs.fsck.write hi hentry hframe
  have hmap := hheader FreeMapSector (Or.inl (Or.inl rfl))
  have hdirectory := hheader DirectorySector (Or.inl (Or.inr rfl))
  refine ⟨r,hrun,⟨hfsck,⟨hs.mounted.freeMap.trans hmap.symm,
    hs.mounted.directory.trans hdirectory.symm⟩,fun h' sector' g hg => ?_⟩,hframe⟩
  obtain ⟨j,l,hj,hentry',hdr'⟩ := hs.files h' sector' g hg
  have hheader' := hheader sector'.toNat (Or.inr ⟨j,sector',l,hj,hentry',rfl⟩)
  exact ⟨j,l,hj,(hentries j hj).trans hentry',hdr'.trans hheader'.symm⟩

theorem step (hs : Inv s) {a : Action} (ha : WritesInFile s a) (ht : step s a = .ok t) :
    Inv t := by
  cases a with
  | create => exact hs.create ht
  | remove => exact hs.remove ht
  | openFile => exact hs.openFile ht
  | remount => exact hs.remount ht
  | readAt =>
    obtain ⟨_,_,ht⟩ := bind_ok.mp ht
    obtain ⟨_,_,ht⟩ := bind_ok.mp ht
    cases ht
    exact hs
  | writeAt h src numBytes position buf buf₁ buf₂ =>
    obtain ⟨⟨sector,f⟩,hf,ht⟩ := bind_ok.mp ht
    obtain ⟨r,hrun,ht⟩ := bind_ok.mp ht
    cases ht
    rw [file_ok] at hf
    have hin : InFile f numBytes position := ha (sector,f) hf
    obtain ⟨r',hrun',hinv,_⟩ := hs.write hf hin src buf buf₁ buf₂
    cases hrun'.symm.trans hrun
    exact hinv
  | read =>
    obtain ⟨⟨sector,f⟩,hf,ht⟩ := bind_ok.mp ht
    obtain ⟨⟨_,_,f'⟩,hrun,ht⟩ := bind_ok.mp ht
    cases ht
    obtain ⟨⟨_,_⟩,_,hr⟩ := bind_ok.mp hrun
    cases hr
    exact hs.move (file_ok.mp hf) rfl
  | write h src numBytes buf buf₁ buf₂ =>
    obtain ⟨⟨sector,f⟩,hf,ht⟩ := bind_ok.mp ht
    obtain ⟨⟨_,disk,f'⟩,hrun,ht⟩ := bind_ok.mp ht
    cases ht
    obtain ⟨r,hwrite,hr⟩ := bind_ok.mp hrun
    cases hr
    rw [file_ok] at hf
    have hin : InFile f numBytes f.seekPosition := ha (sector,f) hf
    obtain ⟨r',hrun',hinv,_⟩ := hs.write hf hin src buf buf₁ buf₂
    cases hrun'.symm.trans hwrite
    exact hinv.move hf rfl
  | seek =>
    obtain ⟨⟨sector,f⟩,hf,ht⟩ := bind_ok.mp ht
    cases ht
    exact hs.move (file_ok.mp hf) rfl

end Inv

theorem inv_reachable {s : State} (h : machine.ReachableWith WritesInFile s) : Inv s :=
  h.invariant (fun _ hi => inv_formatted hi) fun _ _ _ hs ha ht => hs.step ha ht

namespace Created

variable {name : Buffer} {size : ℤ}

theorem entry_new (hc : Created d d' name size i n) :
    entry d' i = some ((n : ℤ),Directory.key name) := by
  rw [hc.entries i hc.index,if_pos rfl]

theorem lookup (hc : Created d d' name size i n) (hm : Mounted fs d') (junk : ℕ → Buffer) :
    fs.lookup d' name junk = .ok n := by
  obtain ⟨found,hlookup,hunique⟩ := lookup_ok hc.fsck hm name junk
  rw [hlookup,hunique i n hc.index hc.entry_new]

/-- The new file can be opened, and has the size asked for. -/
theorem opens (hc : Created d d' name size i n) (hm : Mounted fs d') (junk : ℕ → Buffer) :
    fs.Open d' name junk = .ok (some ⟨d' n,0⟩) := by
  rcases Open_ok hc.fsck hm name junk with ⟨_,hnone⟩ | ⟨j,s,hopen,hj,he⟩
  · exact absurd hc.entry_new (hnone i n hc.index)
  · have hij := namesDistinct_iff.mpr hc.fsck.names j i s n _ hj hc.index he hc.entry_new
    rw [hij,hc.entry_new] at he
    cases he
    exact hopen

end Created

/-- A file of any size can be created on a formatted disk, and opened. -/
theorem exists_open_file (size : ℤ) (h₀ : 0 ≤ size) (h₁ : size ≤ MaxFileSize) :
    ∃ s sector f, machine.ReachableWith WritesInFile s ∧ s.files 0 = some (sector,f) ∧
      FileLength f.hdr = size := by
  let junk : ℕ → Buffer := fun _ _ => 0#8
  obtain ⟨fs,d,hformat,hfsck,hm,hempty,_⟩ := format_ok (fun _ _ => 0#8) junk
  have hstart : machine.ReachableWith WritesInFile ⟨d,fs,fun _ => none⟩ :=
    .start ⟨⟨_,junk,hformat⟩,rfl⟩
  let name : Buffer := fun k => if k = 0 then 97#8 else 0#8
  obtain ⟨d',i,sec,hcreate,hc,hm'⟩ := create_empty hfsck hm hempty name size h₀ h₁ junk
  have hcreated : machine.ReachableWith WritesInFile ⟨d',fs,fun _ => none⟩ := by
    refine hstart.step (a := .create name size junk) trivial ?_
    exact require_bind_ok.mpr ⟨⟨h₀,h₁⟩,bind_ok.mpr ⟨_,hcreate,rfl⟩⟩
  refine ⟨⟨d',fs,_⟩,sec,⟨d' sec,0⟩,hcreated.step (a := .openFile 0 name junk) trivial
    (bind_ok.mpr ⟨_,hc.lookup hm' junk,bind_ok.mpr ⟨_,hc.opens hm' junk,rfl⟩⟩),?_,hc.size⟩
  simp

/-- A write that starts one sector before a file of one sector: the word before
`dataSectors` in the header is `numSectors`, so sector 1 is written. -/
theorem write_before_file {f : OpenFile} (h : Ok f.hdr) (hlen : numBytes f.hdr = SectorSize)
    (hsector : sector f.hdr 0 ≠ DirectorySector) (d : Disk) (src buf buf₁ buf₂ : Buffer) :
    ∃ d', f.WriteAt d src SectorSize (-SectorSize) buf buf₁ buf₂ = .ok (SectorSize,d') ∧
      ∀ k, k < SectorSize → d' DirectorySector k = src k := by
  have hcount := h.numSectors_one hlen
  have hfirst : (0 : ℤ) < numSectors f.hdr := by omega
  have hword : int f.hdr 4 = (DirectorySector : ℕ) := hcount
  obtain ⟨b,hread,_,_⟩ := readIf_ok h d buf SectorSize (i := 0) hfirst buf₂ True
  let e := bcopy src 0 b 0 SectorSize
  let d₁ : Disk := Function.update d DirectorySector (bcopy e 0 (d DirectorySector) 0 SectorSize)
  have hw₁ : d.WriteSector (DirectorySector : ℕ) e 0 = .ok d₁ := rfl
  have hb₀ : ByteToSector f.hdr (-SectorSize) = .ok ((DirectorySector : ℕ) : ℤ) := by
    rw [← hword]
    rfl
  have hb₁ := ByteToSector_ok h hfirst
  obtain ⟨hlt,_⟩ := h.sector_lt hfirst
  let d₂ : Disk := Function.update d₁ (sector f.hdr 0)
    (bcopy e SectorSize (d₁ (sector f.hdr 0)) 0 SectorSize)
  have hw₂ : d₁.WriteSector (sector f.hdr 0) e SectorSize = .ok d₂ := by
    simp [Disk.WriteSector,hlt,bind,Except.bind,pure,Except.pure,d₂]
  have hwrite : writeSectors d f.hdr (-1) 0 e 2 = .ok d₂ := by
    refine bind_ok.mpr ⟨_,hb₀,bind_ok.mpr ⟨d₁,hw₁,bind_ok.mpr ⟨_,hb₁,bind_ok.mpr ⟨d₂,hw₂,rfl⟩⟩⟩⟩
  refine ⟨d₂,?_,fun k hk => ?_⟩
  · have hflen : FileLength f.hdr = SectorSize := hlen
    have hreq : ¬ ((SectorSize : ℤ) ≤ 0 ∨ -(SectorSize : ℤ) ≥ SectorSize) := by decide
    have hstart : (-(SectorSize : ℤ)).tdiv SectorSize = -1 := by decide
    have hstop : wrap (-(SectorSize : ℤ) + SectorSize) = 0 := by decide
    simp only [WriteAt,hflen,if_neg hreq,hstart,hstop]
    refine bind_ok.mpr ⟨(),inBounds_of (by decide),bind_ok.mpr ⟨buf,if_neg (by decide),?_⟩⟩
    refine bind_ok.mpr ⟨b,hread,bind_ok.mpr ⟨(),inBounds_of (by decide),?_⟩⟩
    exact bind_ok.mpr ⟨d₂,hwrite,rfl⟩
  · have hkeep : d₂ DirectorySector = d₁ DirectorySector :=
      Function.update_of_ne hsector.symm _ _
    have hput : d₁ DirectorySector = bcopy e 0 (d DirectorySector) 0 SectorSize :=
      Function.update_self _ _ _
    have he : e k = src k := by simp [e,bcopy_in _ _ _ (show 0 ≤ k ∧ k < 0 + SectorSize by omega)]
    rw [hkeep,hput,bcopy_in _ _ _ (by omega)]
    simpa using he

/-- As long as every write is refused or starts inside its file, the disk is consistent
after every run from a formatted disk. -/
theorem fsck_of_writesInFile (s : State) (h : machine.ReachableWith WritesInFile s) :
    Fsck s.disk := (inv_reachable h).fsck

/-- After a write inside a file, for example. -/
theorem fsck_of_writesInFile_written : ∃ s a t, machine.ReachableWith WritesInFile s ∧
    a = .writeAt 0 (fun _ => 7#8) 3 100 (fun _ => 0#8) (fun _ => 0#8) (fun _ => 0#8) ∧
    machine.step s a = .ok t ∧ Fsck t.disk := by
  obtain ⟨s,sector,f,hs,hf,hlen⟩ := exists_open_file 130 (by decide) (by decide)
  let a : Action := .writeAt 0 (fun _ => 7#8) 3 100 (fun _ => 0#8) (fun _ => 0#8) (fun _ => 0#8)
  have hin : ∀ g : OpenFile, InFile g 3 100 := fun g => Or.inr (Or.inr (by norm_num))
  obtain ⟨r,hrun,_,_⟩ := (inv_reachable hs).write hf (hin f) (fun _ => 7#8) (fun _ => 0#8)
    (fun _ => 0#8) (fun _ => 0#8)
  have ht : machine.step s a = .ok { s with disk := r.2 } :=
    bind_ok.mpr ⟨_,file_ok.mpr hf,bind_ok.mpr ⟨_,hrun,rfl⟩⟩
  have hreach : machine.ReachableWith WritesInFile { s with disk := r.2 } :=
    .step (a := a) hs (fun g _ => hin g.2) ht
  exact ⟨s,a,{ s with disk := r.2 },hs,rfl,ht,fsck_of_writesInFile _ hreach⟩

/-- A write at a negative position overwrites the header of the directory. -/
theorem fsck_broken_by_negative_position : ∃ s, machine.Reachable s ∧ ¬ Fsck s.disk ∧
    numSectors (s.disk DirectorySector) > NumDirect := by
  obtain ⟨s,sector,f,hs,hf,hlen⟩ := exists_open_file SectorSize (by decide) (by decide)
  obtain ⟨i,k,hi,hentry,hdr⟩ := (inv_reachable hs).files 0 sector f hf
  have hfsck := (inv_reachable hs).fsck
  have hok := (hfsck.header i sector k hi hentry).2
  rw [← hdr] at hok
  have hne : FileHeader.sector f.hdr 0 ≠ DirectorySector := by
    have hcount : ((0 : ℕ) : ℤ) < numSectors f.hdr := by
      rw [hok.numSectors_one hlen]
      decide
    have hx : FileHeader.sector f.hdr 0 ∈ data (s.disk sector.toNat) := by
      rw [← hdr]
      exact mem_data.mpr ⟨0,hcount,rfl⟩
    exact (hfsck.data_apart (Or.inr ⟨i,sector,k,hi,hentry,rfl⟩) (Or.inl (Or.inr rfl)) hx).1
  obtain ⟨d',hrun,hover⟩ := write_before_file hok hlen hne s.disk (fun _ => 1#8) (fun _ => 0#8)
    (fun _ => 0#8) (fun _ => 0#8)
  have ht : machine.step s (.writeAt 0 (fun _ => 1#8) SectorSize (-SectorSize) (fun _ => 0#8)
      (fun _ => 0#8) (fun _ => 0#8)) = .ok { s with disk := d' } :=
    bind_ok.mpr ⟨_,file_ok.mpr hf,bind_ok.mpr ⟨_,hrun,rfl⟩⟩
  have hbad : numSectors (d' DirectorySector) = 0x01010101 := by
    have hone : numSectors (d' DirectorySector) = numSectors fun _ => 1#8 :=
      int_congr fun j _ hj => hover j (by simp only [SectorSize]; omega)
    rw [hone]
    decide
  have hmany : numSectors (d' DirectorySector) > NumDirect := by
    rw [hbad]
    decide
  refine ⟨_,hs.reachable.step ht,fun hc => ?_,hmany⟩
  have hle := hc.directory.1.direct
  exact absurd hmany (not_lt.mpr hle)

end FileSystem
end NachOS
