import NachOS.DiskCreate

/-! Which names denote which files of the disk file system: every file is followed by the
name that it was created under. -/
namespace NachOS
namespace FileSystem

open StateMachine Memory FileHeader OpenFile

variable {d d' : Disk} {fs : FileSystem} {s t : State} {a : Action} {name : Buffer} {i h : ℕ}

/-! What a step does to the directory. -/

/-- The name that a call of `Create` is given. -/
def Action.created : Action → Option Buffer
  | .create name _ _ => some name
  | _ => none

/-- An entry is kept, freed, or filled by `Create` with the name that it was given. -/
def EntryStep (d d' : Disk) (created : Option Buffer) (i : ℕ) : Prop :=
  entry d' i = entry d i ∨ entry d' i = none ∨
    entry d i = none ∧ ∃ name sector, created = some name ∧
      entry d' i = some (sector,Directory.key name)

theorem Inv.write_entries (hs : Inv s) {sector : ℤ} {f : OpenFile}
    (hf : s.files h = some (sector,f)) {numBytes position : ℤ} (hin : InFile f numBytes position)
    {src buf buf₁ buf₂ : Buffer} {r : ℤ × Disk}
    (hrun : f.WriteAt s.disk src numBytes position buf buf₁ buf₂ = .ok r)
    (hi : i < NumDirEntries) : entry r.2 i = entry s.disk i := by
  obtain ⟨r',hrun',_,hframe⟩ := hs.write hf hin src buf buf₁ buf₂
  cases hrun'.symm.trans hrun
  obtain ⟨j,k,hj,hentry,_⟩ := hs.files h sector f hf
  exact (hs.fsck.write hj hentry hframe).2.1 i hi

theorem Inv.create_entryStep (hs : Inv s) {size : ℤ} {junk : ℕ → Buffer}
    (ht : FileSystem.step s (.create name size junk) = .ok t) (hi : i < NumDirEntries) :
    EntryStep s.disk t.disk (some name) i := by
  obtain ⟨hsize,ht⟩ := require_bind_ok.mp ht
  obtain ⟨⟨success,disk⟩,hrun,ht⟩ := bind_ok.mp ht
  cases ht
  rcases Create_ok hs.fsck hs.mounted name hsize.1 hsize.2 junk with
    ⟨hno,_⟩ | ⟨d',j,sector,hyes,hc,_⟩
  · cases hno.symm.trans hrun
    exact Or.inl rfl
  · cases hyes.symm.trans hrun
    by_cases hij : i = j
    · subst hij
      exact Or.inr (Or.inr ⟨hc.free,name,sector,rfl,hc.entry_new⟩)
    · exact Or.inl (by rw [hc.entries i hi,if_neg hij])

theorem Inv.remove_entryStep (hs : Inv s) {junk : ℕ → Buffer}
    (ht : FileSystem.step s (.remove name junk) = .ok t) (hi : i < NumDirEntries) :
    EntryStep s.disk t.disk none i := by
  obtain ⟨found,_,ht⟩ := bind_ok.mp ht
  obtain ⟨⟨success,disk⟩,hrun,ht⟩ := bind_ok.mp ht
  cases ht
  rcases Remove_ok hs.fsck hs.mounted name junk with ⟨hno,_⟩ | ⟨d',j,sector,hyes,_,_,hr,_⟩
  · cases hno.symm.trans hrun
    exact Or.inl rfl
  · cases hyes.symm.trans hrun
    by_cases hij : i = j
    · exact Or.inr (Or.inl (by rw [hr.entries i hi,if_pos hij]))
    · exact Or.inl (by rw [hr.entries i hi,if_neg hij])

theorem Inv.entryStep (hs : Inv s) (ha : WritesInFile s a) (ht : FileSystem.step s a = .ok t)
    (hi : i < NumDirEntries) : EntryStep s.disk t.disk a.created i := by
  cases a with
  | create => exact hs.create_entryStep ht hi
  | remove => exact hs.remove_entryStep ht hi
  | openFile =>
    obtain ⟨_,_,ht⟩ := bind_ok.mp ht
    obtain ⟨_,_,ht⟩ := bind_ok.mp ht
    cases ht
    exact Or.inl rfl
  | remount =>
    obtain ⟨_,_,ht⟩ := bind_ok.mp ht
    cases ht
    exact Or.inl rfl
  | readAt =>
    obtain ⟨_,_,ht⟩ := bind_ok.mp ht
    obtain ⟨_,_,ht⟩ := bind_ok.mp ht
    cases ht
    exact Or.inl rfl
  | writeAt h src numBytes position buf buf₁ buf₂ =>
    obtain ⟨⟨sector,f⟩,hf,ht⟩ := bind_ok.mp ht
    obtain ⟨r,hrun,ht⟩ := bind_ok.mp ht
    cases ht
    rw [file_ok] at hf
    have hin : InFile f numBytes position := ha (sector,f) hf
    have hkept := hs.write_entries hf hin hrun hi
    exact Or.inl hkept
  | read =>
    obtain ⟨_,_,ht⟩ := bind_ok.mp ht
    obtain ⟨_,_,ht⟩ := bind_ok.mp ht
    cases ht
    exact Or.inl rfl
  | write h src numBytes buf buf₁ buf₂ =>
    obtain ⟨⟨sector,f⟩,hf,ht⟩ := bind_ok.mp ht
    obtain ⟨⟨_,disk,f'⟩,hrun,ht⟩ := bind_ok.mp ht
    cases ht
    obtain ⟨r,hwrite,hr⟩ := bind_ok.mp hrun
    cases hr
    rw [file_ok] at hf
    have hin : InFile f numBytes f.seekPosition := ha (sector,f) hf
    have hkept := hs.write_entries hf hin hwrite hi
    exact Or.inl hkept
  | seek =>
    obtain ⟨_,_,ht⟩ := bind_ok.mp ht
    cases ht
    exact Or.inl rfl

/-! The names. -/

/-- The file system, and the name that the file of each directory entry was created under. -/
structure Named where
  state : State
  names : ℕ → Option Buffer

/-- The names after a step: a file that was not there before has the name of that call. -/
def track (d d' : Disk) (created : Option Buffer) (names : ℕ → Option Buffer) (i : ℕ) :
    Option Buffer :=
  match entry d i,entry d' i with
  | _,none => none
  | none,some _ => created
  | some _,some _ => names i

def named : Machine Named Action where
  initial s := Formatted s.state ∧ s.names = fun _ => none
  step s a := do
    let t ← step s.state a
    return ⟨t,track s.state.disk t.disk a.created s.names⟩

/-- The runs that keep the disk consistent. -/
abbrev Named.WritesInFile (s : Named) : Action → Prop := FileSystem.WritesInFile s.state

/-- The names in the directory are those that the files were created under, as far as they
are compared. -/
structure Named.Inv (s : Named) : Prop where
  inv : FileSystem.Inv s.state
  names : ∀ i, i < NumDirEntries →
    (entry s.state.disk i).map Prod.snd = (s.names i).map Directory.key

theorem EntryStep.track_eq {created : Option Buffer} {names : ℕ → Option Buffer}
    (he : EntryStep d d' created i)
    (hnames : (entry d i).map Prod.snd = (names i).map Directory.key) :
    (entry d' i).map Prod.snd = (track d d' created names i).map Directory.key := by
  rcases he with hkept | hfreed | ⟨hfree,name,sector,rfl,hnew⟩
  · rw [track,hkept]
    cases hentry : entry d i with
    | none => rfl
    | some e =>
      rw [hentry] at hnames
      exact hnames
  · simp only [track,hfreed]
    rfl
  · simp only [track,hfree,hnew]
    rfl

theorem Named.inv_reachable {s : Named} (hs : named.ReachableWith Named.WritesInFile s) :
    s.Inv := by
  refine hs.invariant (fun s hi => ?_) fun s a t hs ha ht => ?_
  · obtain ⟨hformatted,hnames⟩ := hi
    refine ⟨inv_formatted hformatted,fun i hi => ?_⟩
    obtain ⟨⟨d,junk,hrun⟩,_⟩ := hformatted
    obtain ⟨fs,disk,hrun',_,_,hempty,_⟩ := format_ok d junk
    obtain ⟨_,hdisk⟩ := Prod.mk.inj (Except.ok.inj (hrun.symm.trans hrun'))
    rw [hdisk,hempty i hi,hnames]
    rfl
  · obtain ⟨t',hstep,ht⟩ := bind_ok.mp ht
    cases ht
    exact ⟨hs.inv.step ha hstep,fun i hi =>
      (hs.inv.entryStep ha hstep hi).track_eq (hs.names i hi)⟩

/-- No file was created under a name with these first characters. -/
theorem Named.Inv.absent_iff {s : Named} (hs : s.Inv) :
    (∀ j sector, j < NumDirEntries → entry s.state.disk j ≠ some (sector,Directory.key name)) ↔
      ∀ i n, i < NumDirEntries → s.names i = some n → Directory.key n ≠ Directory.key name := by
  constructor
  · intro habsent i n hi hn hkey
    have hentry := hs.names i hi
    rw [hn,Option.map_some,hkey] at hentry
    obtain ⟨⟨sector,k⟩,he,rfl⟩ := Option.map_eq_some_iff.mp hentry
    exact habsent i sector hi he
  · intro hnames j sector hj he
    have hentry := hs.names j hj
    rw [he,Option.map_some] at hentry
    obtain ⟨n,hn,hkey⟩ := Option.map_eq_some_iff.mp hentry.symm
    exact hnames j n hj hn hkey

/-- The file system treats the name as one that no file has: `Open` finds nothing, `Remove`
changes nothing, and `Create` passes the test of the name and then refuses a file of possible
size only if all entries are in use or the sectors do not suffice. -/
structure Unknown (fs : FileSystem) (d : Disk) (name : Buffer) (junk : ℕ → Buffer) : Prop where
  opens : fs.Open d name junk = .ok none
  removes : fs.Remove d name junk = .ok (false,d)
  finds : ∃ directory, fs.readDirectory d junk = .ok directory ∧ directory.Find name = -1
  creates : ∀ size : ℤ, 0 ≤ size → size ≤ MaxFileSize →
    ∃ success d', fs.Create d name size junk = .ok (success,d') ∧
      (success = false → (∀ j, j < NumDirEntries → entry d j ≠ none) ∨
        ((clearBits d).card : ℤ) < 1 + (size + (SectorSize - 1)) / SectorSize)

theorem Fsck.unknown_iff (h : Fsck d) (hm : Mounted fs d) (name : Buffer) (junk : ℕ → Buffer) :
    Unknown fs d name junk ↔
      ∀ j sector, j < NumDirEntries → entry d j ≠ some (sector,Directory.key name) := by
  constructor
  · intro hu
    rcases Open_ok h hm name junk with ⟨_,habsent⟩ | ⟨i,sector,hopen,_⟩
    · exact habsent
    · cases hopen.symm.trans hu.opens
  · intro habsent
    constructor
    · rcases Open_ok h hm name junk with ⟨hopen,_⟩ | ⟨i,sector,_,hi,he⟩
      · exact hopen
      · exact absurd he (habsent i sector hi)
    · rcases Remove_ok h hm name junk with ⟨hremove,_⟩ | ⟨_,i,sector,_,hi,he,_⟩
      · exact hremove
      · exact absurd he (habsent i sector hi)
    · obtain ⟨t,hread,ht⟩ := readDirectory_ok h.systemOk hm junk
      refine ⟨_,hread,?_⟩
      rcases Directory.Find_ok ⟨NumDirEntries,t⟩ name with ⟨i,sector,hi,he,_⟩ | ⟨_,_,hfind⟩
      · rw [ht i hi] at he
        exact absurd he (habsent i sector hi)
      · exact hfind
    · intro size h₀ h₁
      rcases Create_ok h hm name h₀ h₁ junk with ⟨hno,hrefused⟩ | ⟨d',_,_,hyes,_⟩
      · refine ⟨false,d,hno,fun _ => ?_⟩
        rcases (refused_iff h).mp hrefused with ⟨j,sector,hj,he⟩ | hwhy
        · exact absurd he (habsent j sector hj)
        · exact hwhy
      · exact ⟨true,d',hyes,nofun⟩

/-- In every file system that a run leads to, a name is unknown exactly if it differs within
its first `FileNameMaxLen` characters from the name of every file. -/
theorem unknown_iff_differs (s : Named) (hs : named.ReachableWith Named.WritesInFile s)
    (name : Buffer) (junk : ℕ → Buffer) :
    Unknown s.state.fs s.state.disk name junk ↔
      ∀ i n, i < NumDirEntries → s.names i = some n →
        Directory.key n ≠ Directory.key name := by
  have hinv := Named.inv_reachable hs
  rw [hinv.inv.fsck.unknown_iff hinv.inv.mounted]
  exact hinv.absent_iff

/-- A run that creates one file. -/
theorem exists_created (name : Buffer) : ∃ s i, named.ReachableWith Named.WritesInFile s ∧
    i < NumDirEntries ∧ s.names i = some name ∧
    ∀ j, j < NumDirEntries → j ≠ i → s.names j = none := by
  let junk : ℕ → Buffer := fun _ _ => 0#8
  obtain ⟨fs,d,hformat,hfsck,hm,hempty,_⟩ := format_ok (fun _ _ => 0#8) junk
  have hstart : named.ReachableWith Named.WritesInFile ⟨⟨d,fs,fun _ => none⟩,fun _ => none⟩ :=
    .start ⟨⟨⟨_,junk,hformat⟩,rfl⟩,rfl⟩
  obtain ⟨d',i,sector,hcreate,hc,_⟩ := create_empty hfsck hm hempty name 0 le_rfl (by decide) junk
  have hstep : step ⟨d,fs,fun _ => none⟩ (.create name 0 junk) = .ok ⟨d',fs,fun _ => none⟩ :=
    require_bind_ok.mpr ⟨by decide,bind_ok.mpr ⟨_,hcreate,rfl⟩⟩
  refine ⟨⟨_,track d d' (some name) fun _ => none⟩,i,
    hstart.step (a := .create name 0 junk) trivial (bind_ok.mpr ⟨_,hstep,rfl⟩),hc.index,?_,
    fun j hj hne => ?_⟩
  · simp only [track,hc.free,hc.entry_new]
  · have hnone : entry d' j = none := by
      rw [hc.entries j hj,if_neg hne]
      exact hempty j hj
    simp only [track,hnone]

/-- After `a` was created, `b` is unknown. -/
theorem unknown_iff_differs_letters : ∃ s i, named.ReachableWith Named.WritesInFile s ∧
    s.names i = some (letter 97#8) ∧
    Unknown s.state.fs s.state.disk (letter 98#8) fun _ _ => 0#8 := by
  obtain ⟨s,i,hs,hi,hname,hothers⟩ := exists_created (letter 97#8)
  refine ⟨s,i,hs,hname,(unknown_iff_differs s hs _ _).mpr fun j n hj hn => ?_⟩
  by_cases hji : j = i
  · rw [hji,hname] at hn
    cases hn
    decide
  · rw [hothers j hj hji] at hn
    cases hn

/-- The operations take a name with the same first characters for the name of the file. -/
theorem Named.Inv.known {s : Named} (hs : s.Inv) {n : Buffer} (hi : i < NumDirEntries)
    (hn : s.names i = some n) (hkey : Directory.key n = Directory.key name) (junk : ℕ → Buffer) :
    (∃ f, s.state.fs.Open s.state.disk name junk = .ok (some f)) ∧
    (∃ d', s.state.fs.Remove s.state.disk name junk = .ok (true,d')) ∧
    ∀ size, s.state.fs.Create s.state.disk name size junk = .ok (false,s.state.disk) := by
  have hsome : ¬ ∀ j sector, j < NumDirEntries →
      entry s.state.disk j ≠ some (sector,Directory.key name) := by
    intro hnone
    exact hs.absent_iff.mp hnone i n hi hn hkey
  refine ⟨?_,?_,fun size => ?_⟩
  · rcases Open_ok hs.inv.fsck hs.inv.mounted name junk with ⟨_,hnone⟩ | ⟨_,_,hopen,_⟩
    · exact absurd hnone hsome
    · exact ⟨_,hopen⟩
  · rcases Remove_ok hs.inv.fsck hs.inv.mounted name junk with ⟨_,hnone⟩ | ⟨d',_,_,hremove,_⟩
    · exact absurd hnone hsome
    · exact ⟨d',hremove⟩
  · rcases Create_prepared hs.inv.fsck hs.inv.mounted name size junk with
      ⟨hno,_⟩ | ⟨_,_,_,_,hp,_⟩
    · exact hno
    · exact absurd hp.new hsome

/-- A name of ten characters. -/
def tenCharacters (c : Byte) : List Byte :=
  [97#8,108#8,111#8,110#8,103#8,110#8,97#8,109#8,101#8,c]

theorem spells_tenCharacters {c : Byte} (hc : c ≠ 0#8) :
    Spells (ofList (tenCharacters c)) (tenCharacters c) := by
  refine ⟨fun _ _ => rfl,?_⟩
  simpa [tenCharacters] using hc.symm

/-- After `alongname1` was created, and nothing else, `alongname2` can be opened and removed,
and not created. -/
theorem long_names_denote_one_file : ∃ s i n₁ n₂ p₁ p₂,
    named.ReachableWith Named.WritesInFile s ∧ Spells n₁ p₁ ∧ Spells n₂ p₂ ∧ p₁ ≠ p₂ ∧
    s.names i = some n₁ ∧ (∀ j, j < NumDirEntries → j ≠ i → s.names j = none) ∧
    (∃ f, s.state.fs.Open s.state.disk n₂ (fun _ _ => 0#8) = .ok (some f)) ∧
    (∃ d', s.state.fs.Remove s.state.disk n₂ (fun _ _ => 0#8) = .ok (true,d')) ∧
    ∀ size, s.state.fs.Create s.state.disk n₂ size (fun _ _ => 0#8) =
      .ok (false,s.state.disk) := by
  have hspells₁ := spells_tenCharacters (c := 49#8) (by decide)
  have hspells₂ := spells_tenCharacters (c := 50#8) (by decide)
  obtain ⟨s,i,hs,hi,hname,hothers⟩ := exists_created (ofList (tenCharacters 49#8))
  have hkey : Directory.key (ofList (tenCharacters 49#8)) =
      Directory.key (ofList (tenCharacters 50#8)) := by
    rw [Directory.key,Directory.key,hspells₁.cString_take,hspells₂.cString_take]
    rfl
  exact ⟨s,i,_,_,_,_,hs,hspells₁,hspells₂,by decide,hname,hothers,
    (Named.inv_reachable hs).known hi hname hkey _⟩

end FileSystem
end NachOS
