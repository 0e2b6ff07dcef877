import NachOS.CreateRemove

/-! Open files of the disk file system that stay in use after their file was removed.
An open file has its own copy of the header, so it keeps the sectors of a removed file,
which may meanwhile belong to another one. -/
namespace NachOS
namespace FileSystem
namespace Handles

open StateMachine Memory FileHeader OpenFile FileArray

/-- An open file, the sector its header was read from, and whether its file is still on
the disk. -/
structure Handle where
  sector : ℤ
  file : OpenFile
  live : Bool

structure State where
  disk : Disk
  fs : FileSystem
  handles : ℕ → Option Handle

inductive Action
  | create (name : Buffer) (initialSize : ℤ) (junk : ℕ → Buffer)
  | remove (name : Buffer) (junk : ℕ → Buffer)
  | openFile (h : ℕ) (name : Buffer) (junk : ℕ → Buffer)
  | writeAt (h : ℕ) (src : Buffer) (numBytes position : ℤ) (buf buf₁ buf₂ : Buffer)

def step (s : State) : Action → Except Fault State
  | .create name initialSize junk => do
    let (_,disk) ← s.fs.Create s.disk name initialSize junk
    return { s with disk := disk }
  | .remove name junk => do
    let sector ← s.fs.lookup s.disk name junk
    let (_,disk) ← s.fs.Remove s.disk name junk
    -- the open files of the removed file stay as they are
    return { s with
      disk := disk
      handles := fun h => (s.handles h).map fun g =>
        { g with live := g.live && decide (g.sector ≠ sector) } }
  | .openFile h name junk => do
    let sector ← s.fs.lookup s.disk name junk
    let f ← s.fs.Open s.disk name junk
    return { s with handles := Function.update s.handles h (f.map fun f => ⟨sector,f,true⟩) }
  | .writeAt h src numBytes position buf buf₁ buf₂ =>
    match s.handles h with
    | none => .error .blocked
    | some g => do
      let (_,disk) ← g.file.WriteAt s.disk src numBytes position buf buf₁ buf₂
      return { s with disk := disk }

def machine : Machine State Action :=
  ⟨fun s => (∃ d junk, format d junk = .ok (s.fs,s.disk)) ∧ s.handles = fun _ => none,step⟩

/-- Entry `j` is the file that `g` was opened on. -/
def Handle.Own (g : Handle) (d : Disk) (j : ℕ) : Prop :=
  g.live = true ∧ ∃ k, entry d j = some (g.sector,k)

/-- Sizes are those of a file, and a write is refused, or goes to a file that is still
on the disk, starts inside it and does not overflow. -/
def InUse (s : State) : Action → Prop
  | .create _ initialSize _ => 0 ≤ initialSize ∧ initialSize ≤ MaxFileSize
  | .writeAt h _ numBytes position _ _ _ => ∀ g, s.handles h = some g →
    numBytes ≤ 0 ∨ position ≥ FileLength g.file.hdr ∨
      g.live = true ∧ 0 ≤ position ∧ position + numBytes < 2 ^ 31
  | _ => True

/-- The files of the file system itself are as before, and so are the free map and every
file of the directory that `own` does not allow to change. -/
structure OthersKept (d d' : Disk) (own : ℕ → Prop) : Prop where
  system : ∀ n ∈ system d, d' n = d n
  marks : ∀ n, Marked d' n ↔ Marked d n
  files : ∀ j, j < NumDirEntries → ¬ own j → Kept d d' j

variable {s t : State} {h : ℕ} {g : Handle}

theorem OthersKept.refl (d : Disk) (own : ℕ → Prop) : OthersKept d d own :=
  ⟨fun _ _ => rfl,fun _ => Iff.rfl,fun _ _ _ => ⟨rfl,fun _ _ _ => rfl,fun _ _ _ => rfl⟩⟩

/-- A write to the data sectors of one file leaves the others alone. -/
theorem othersKept {d d' : Disk} (hd : Fsck d) {i : ℕ} {k : List Byte} (hi : i < NumDirEntries)
    (hlive : g.live = true) (he : entry d i = some (g.sector,k))
    (hw : ∀ n, n ∉ data (d g.sector.toNat) → d' n = d n) : OthersKept d d' (g.Own d) := by
  have hsystem : ∀ n ∈ system d, d' n = d n := by
    intro n hn
    exact hw n fun hx => hd.sectors.share_base hi (Fsck.mem_share he (Or.inr hx)) hn
  refine ⟨hsystem,fun n => hd.marked_congr hsystem,fun j hj hown => ?_⟩
  have hne : i ≠ j := by
    intro hij
    exact hown ⟨hlive,k,hij ▸ he⟩
  refine hd.kept hj ((hd.write hi he hw).2.1 j hj) fun n hn => hw n fun hx => ?_
  exact hd.sectors.share_share hi hj hne (Fsck.mem_share he (Or.inr hx)) hn

/-! The handles whose file is still there are the open files of the machine in which
removing a file ends the use of its open files. -/

def live (s : State) : FileSystem.State :=
  ⟨s.disk,s.fs,fun h => ((s.handles h).filter Handle.live).map fun g => (g.sector,g.file)⟩

theorem live_files (hg : s.handles h = some g) (hlive : g.live = true) :
    (live s).files h = some (g.sector,g.file) := by
  simp [live,hg,hlive]

theorem live_create {name : Buffer} {size : ℤ} {junk : ℕ → Buffer}
    (hsize : 0 ≤ size ∧ size ≤ MaxFileSize) (ht : step s (.create name size junk) = .ok t) :
    FileSystem.step (live s) (.create name size junk) = .ok (live t) := by
  obtain ⟨⟨success,disk⟩,hrun,ht⟩ := bind_ok.mp ht
  cases ht
  exact require_bind_ok.mpr ⟨hsize,bind_ok.mpr ⟨_,hrun,rfl⟩⟩

theorem live_remove {name : Buffer} {junk : ℕ → Buffer}
    (ht : step s (.remove name junk) = .ok t) :
    FileSystem.step (live s) (.remove name junk) = .ok (live t) := by
  obtain ⟨sector,hlookup,ht⟩ := bind_ok.mp ht
  obtain ⟨⟨success,disk⟩,hrun,ht⟩ := bind_ok.mp ht
  cases ht
  refine bind_ok.mpr ⟨sector,hlookup,bind_ok.mpr ⟨_,hrun,?_⟩⟩
  simp only [live,pure,Except.pure]
  congr 2
  funext h
  cases s.handles h with
  | none => rfl
  | some g =>
    by_cases hlive : g.live = true
    · by_cases hne : g.sector = sector <;> simp [hlive,hne,Option.filter]
    · simp [hlive,Option.filter]

theorem live_openFile {name : Buffer} {junk : ℕ → Buffer}
    (ht : step s (.openFile h name junk) = .ok t) :
    FileSystem.step (live s) (.openFile h name junk) = .ok (live t) := by
  obtain ⟨sector,hlookup,ht⟩ := bind_ok.mp ht
  obtain ⟨f,hrun,ht⟩ := bind_ok.mp ht
  cases ht
  refine bind_ok.mpr ⟨sector,hlookup,bind_ok.mpr ⟨f,hrun,?_⟩⟩
  simp only [live,pure,Except.pure]
  congr 2
  funext h'
  by_cases he : h' = h
  · subst he
    cases f <;> simp [Option.filter]
  · simp [Function.update_of_ne he]

/-- A write through a handle succeeds, and touches no file but its own. -/
theorem writeAt_ok (hs : Inv (live s)) (hg : s.handles h = some g) (src : Buffer)
    (numBytes position : ℤ) (buf buf₁ buf₂ : Buffer)
    (hin : InUse s (.writeAt h src numBytes position buf buf₁ buf₂)) :
    ∃ t, step s (.writeAt h src numBytes position buf buf₁ buf₂) = .ok t ∧ Inv (live t) ∧
      OthersKept s.disk t.disk (g.Own s.disk) := by
  by_cases hreq : numBytes ≤ 0 ∨ position ≥ FileLength g.file.hdr
  · refine ⟨s,?_,hs,OthersKept.refl _ _⟩
    simp only [step,hg]
    exact bind_ok.mpr ⟨(0,s.disk),if_pos hreq,rfl⟩
  · rw [not_or] at hreq
    obtain ⟨hlive,hrange⟩ := ((hin g hg).resolve_left hreq.1).resolve_left hreq.2
    have hf := live_files hg hlive
    obtain ⟨i,k,hi,hentry,_⟩ := hs.files h g.sector g.file hf
    obtain ⟨r,hrun,hinv,hframe⟩ := hs.write hf (Or.inr (Or.inr hrange)) src buf buf₁ buf₂
    refine ⟨{ s with disk := r.2 },?_,hinv,othersKept hs.fsck hi hlive hentry hframe⟩
    simp only [step,hg]
    exact bind_ok.mpr ⟨r,hrun,rfl⟩

theorem inv_step (hs : Inv (live s)) {a : Action} (ha : InUse s a) (ht : step s a = .ok t) :
    Inv (live t) := by
  cases a with
  | create name size junk => exact hs.create (live_create ha ht)
  | remove name junk => exact hs.remove (live_remove ht)
  | openFile h name junk => exact hs.openFile (live_openFile ht)
  | writeAt h src numBytes position buf buf₁ buf₂ =>
    cases hg : s.handles h with
    | none => simp [step,hg] at ht
    | some g =>
      obtain ⟨t',ht',hinv,_⟩ := writeAt_ok hs hg src numBytes position buf buf₁ buf₂ ha
      cases ht'.symm.trans ht
      exact hinv

theorem inv_reachable (hs : machine.ReachableWith InUse s) : Inv (live s) := by
  have hstart : ∀ s, machine.initial s → Inv (live s) := by
    intro s hi
    refine inv_formatted ⟨hi.1,?_⟩
    funext h
    simp [live,hi.2]
  exact hs.invariant (P := fun s => Inv (live s)) hstart fun _ _ _ hs ha ht => inv_step hs ha ht

/-- In every run in which a file is written only through handles that were opened since
the last removal of their file, and only from inside the file, a write changes nothing
of any other file. -/
theorem writes_keep_other_files (s : State) (hs : machine.ReachableWith InUse s) (h : ℕ)
    (g : Handle) (hg : s.handles h = some g) (src : Buffer) (numBytes position : ℤ)
    (buf buf₁ buf₂ : Buffer) (hin : InUse s (.writeAt h src numBytes position buf buf₁ buf₂)) :
    ∃ t, machine.step s (.writeAt h src numBytes position buf buf₁ buf₂) = .ok t ∧
      OthersKept s.disk t.disk (g.Own s.disk) := by
  obtain ⟨t,ht,_,hkept⟩ := writeAt_ok (inv_reachable hs) hg src numBytes position buf buf₁ buf₂ hin
  exact ⟨t,ht,hkept⟩

/-! A run that opens a file of one sector. -/

def zeros : ℕ → Buffer := fun _ _ => 0#8

/-- The open file that `Open` makes of a header in sector `n`, as the first handle. -/
def opened (d : Disk) (fs : FileSystem) (n : ℕ) : State :=
  ⟨d,fs,Function.update (fun _ => none) 0 (some ⟨n,⟨d n,0⟩,true⟩)⟩

theorem step_create {d d' : Disk} {fs : FileSystem} {name : Buffer} {size : ℤ}
    {junk : ℕ → Buffer} (hrun : fs.Create d name size junk = .ok (true,d'))
    (handles : ℕ → Option Handle) :
    step ⟨d,fs,handles⟩ (.create name size junk) = .ok ⟨d',fs,handles⟩ :=
  bind_ok.mpr ⟨_,hrun,rfl⟩

theorem step_openFile {d₀ d : Disk} {fs : FileSystem} {name : Buffer} {size : ℤ} {i n : ℕ}
    (hc : Created d₀ d name size i n) (hm : Mounted fs d) (junk : ℕ → Buffer) :
    step ⟨d,fs,fun _ => none⟩ (.openFile 0 name junk) = .ok (opened d fs n) := by
  exact bind_ok.mpr ⟨n,hc.lookup hm junk,bind_ok.mpr ⟨_,hc.opens hm junk,rfl⟩⟩

/-- For example, the first byte of a new file is written. -/
theorem writes_keep_other_files_first_byte : ∃ s g t, machine.ReachableWith InUse s ∧
    s.handles 0 = some g ∧ g.live = true ∧ FileLength g.file.hdr = SectorSize ∧
    machine.step s (.writeAt 0 (fun _ => 7#8) 1 0 (zeros 0) (zeros 1) (zeros 2)) = .ok t ∧
    OthersKept s.disk t.disk (g.Own s.disk) := by
  obtain ⟨fs,d₀,hformat,hfsck,hm,hempty,_⟩ := format_ok zeros zeros
  obtain ⟨d,i,n,hcreate,hc,hm'⟩ := create_empty hfsck hm hempty (letter 97#8) SectorSize (by decide)
    (by decide) zeros
  have hstart : machine.ReachableWith InUse ⟨d₀,fs,fun _ => none⟩ :=
    .start ⟨⟨_,zeros,hformat⟩,rfl⟩
  have hcreated : machine.ReachableWith InUse ⟨d,fs,fun _ => none⟩ := by
    refine hstart.step (a := .create (letter 97#8) SectorSize zeros) ?_ (step_create hcreate _)
    exact ⟨by decide,by decide⟩
  have hopened : machine.ReachableWith InUse (opened d fs n) :=
    hcreated.step (a := .openFile 0 (letter 97#8) zeros) trivial (step_openFile hc hm' zeros)
  have hg : (opened d fs n).handles 0 = some ⟨n,⟨d n,0⟩,true⟩ := by simp [opened]
  have hin : InUse (opened d fs n) (.writeAt 0 (fun _ => 7#8) 1 0 (zeros 0) (zeros 1) (zeros 2)) := by
    intro g hg'
    cases hg.symm.trans hg'
    exact Or.inr (Or.inr ⟨rfl,by decide,by decide⟩)
  obtain ⟨t,ht,hkept⟩ := writes_keep_other_files _ hopened 0 _ hg (fun _ => 7#8) 1 0 (zeros 0)
    (zeros 1) (zeros 2) hin
  exact ⟨_,_,t,hopened,hg,rfl,hc.size,ht,hkept⟩

/-! First fit hands out the same sectors again. -/

theorem firstFit {d d' : Disk} {name : Buffer} {size : ℤ} {i n : ℕ}
    (hc : Created d d' name size i n) : Inventory.FirstFit (Marked d) (share d' i).toFinset := by
  constructor
  · intro x hx
    exact hc.clear x (List.mem_toFinset.mp hx)
  · intro x hx l hl
    rw [List.mem_toFinset]
    exact (hc.marks l).mp (hc.least x (List.mem_toFinset.mp hx) l hl)

/-- Two files of the same size that are created while the same sectors are clear get the
same sectors. -/
theorem same_sectors {d₁ d₂ e₁ e₂ : Disk} {a b : Buffer} {size : ℤ} {i j n m : ℕ}
    (h₁ : Created d₁ e₁ a size i n) (h₂ : Created d₂ e₂ b size j m)
    (hmarks : ∀ x, Marked d₁ x ↔ Marked d₂ x) :
    n = m ∧ ∀ x, x ∈ data (e₁ n) ↔ x ∈ data (e₂ m) := by
  have hn : n ∈ share e₁ i := by rw [h₁.share_eq]; exact List.mem_cons_self
  have hm : m ∈ share e₂ j := by rw [h₂.share_eq]; exact List.mem_cons_self
  have hheader : n = m := by
    rcases Nat.lt_trichotomy n m with hlt | heq | hlt
    · exact absurd ((hmarks n).mpr (h₂.first n hlt)) (h₁.clear n hn)
    · exact heq
    · exact absurd ((hmarks m).mp (h₁.first m hlt)) (h₂.clear m hm)
  have hcard : (share e₁ i).toFinset.card = (share e₂ j).toFinset.card := by
    have hc₁ := h₁.card_taken
    have hc₂ := h₂.card_taken
    rw [h₁.clearBits_sdiff.2] at hc₁
    rw [h₂.clearBits_sdiff.2] at hc₂
    omega
  have hfit₂ := firstFit h₂
  rw [show Marked d₂ = Marked d₁ from funext fun x => propext (hmarks x).symm] at hfit₂
  have hshare := (firstFit h₁).unique hfit₂ hcard
  refine ⟨hheader,fun x => ?_⟩
  have hmem : x ∈ share e₁ i ↔ x ∈ share e₂ j := by
    rw [← List.mem_toFinset,hshare,List.mem_toFinset]
  have hnodup₁ := h₁.fsck.sectors.share_nodup h₁.index
  have hnodup₂ := h₂.fsck.sectors.share_nodup h₂.index
  rw [h₁.share_eq,List.nodup_cons] at hnodup₁
  rw [h₂.share_eq,List.nodup_cons] at hnodup₂
  rw [h₁.share_eq,h₂.share_eq,List.mem_cons,List.mem_cons,← hheader] at hmem
  rw [← hheader] at hnodup₂ ⊢
  by_cases hx : x = n
  · subst hx
    simp [hnodup₁.1,hnodup₂.1]
  · simpa [hx] using hmem

theorem same_first_sector {a b : Buffer} (ha : Ok a) (hb : Ok b) (hlen : numBytes a = SectorSize)
    (hlen' : numBytes b = SectorSize) (hsub : ∀ x ∈ data a, x ∈ data b) :
    sector a 0 = sector b 0 := by
  have hcount := ha.numSectors_one hlen
  have hcount' := hb.numSectors_one hlen'
  obtain ⟨j,hj,he⟩ := mem_data.mp (hsub _ (mem_data.mpr ⟨0,by omega,rfl⟩))
  have hzero : j = 0 := by omega
  rw [← he,hzero]

theorem step_remove {d₀ d : Disk} {fs : FileSystem} {name : Buffer} {size : ℤ} {i n : ℕ}
    (hc : Created d₀ d name size i n) (hm : Mounted fs d) (junk : ℕ → Buffer) :
    ∃ d', step (opened d fs n) (.remove name junk) =
        .ok ⟨d',fs,Function.update (fun _ => none) 0 (some ⟨n,⟨d n,0⟩,false⟩)⟩ ∧
      Removed d d' i ∧ Mounted fs d' := by
  obtain ⟨d',_,_,hrun,hr,hm',_⟩ := hc.removes hm junk
  refine ⟨d',bind_ok.mpr ⟨n,hc.lookup hm junk,bind_ok.mpr ⟨_,hrun,?_⟩⟩,hr,hm'⟩
  simp only [opened,pure,Except.pure]
  congr 2
  funext h
  by_cases hh : h = 0
  · subst hh
    simp
  · simp [Function.update_of_ne hh]

/-- A file of one sector is created, opened and removed, and another one is created, which
gets the same sectors.  A byte written through the first one's open file then is the first
byte of the other file. -/
theorem stale_write_changes_new_file : ∃ s₀ s t g i sector, machine.initial s₀ ∧
    machine.run s₀ [.create (letter 97#8) SectorSize zeros,.openFile 0 (letter 97#8) zeros,
      .remove (letter 97#8) zeros,.create (letter 98#8) SectorSize zeros] = .ok s ∧
    s.handles 0 = some g ∧ i < NumDirEntries ∧ ¬ g.Own s.disk i ∧
    entry s.disk i = some (sector,Directory.key (letter 98#8)) ∧
    (∃ src, machine.step s (.writeAt 0 src 1 0 (zeros 0) (zeros 1) (zeros 2)) = .ok t) ∧
    content t.disk (t.disk sector.toNat) ≠ content s.disk (s.disk sector.toNat) := by
  obtain ⟨fs,d₀,hformat,hfsck,hm,hempty,_⟩ := format_ok zeros zeros
  obtain ⟨d₁,i,n,hcreate,hc,hm₁⟩ := create_empty hfsck hm hempty (letter 97#8) SectorSize (by decide)
    (by decide) zeros
  obtain ⟨d₂,hremove,hr,hm₂⟩ := step_remove hc hm₁ zeros
  have hempty₂ : ∀ j, j < NumDirEntries → entry d₂ j = none :=
    fun j hj => (hc.entry_removed hr hj).trans (hempty j hj)
  obtain ⟨d₃,j,m,hcreate',hc',hm₃⟩ := create_empty hr.fsck hm₂ hempty₂ (letter 98#8) SectorSize
    (by decide) (by decide) zeros
  obtain ⟨rfl,hdata⟩ := same_sectors hc hc' (marked_of_removed hc hr)
  let f : OpenFile := ⟨d₁ n,0⟩
  have hok : Ok f.hdr := (hc.fsck.header i n _ hc.index hc.entry_new).2
  have hok' : Ok (d₃ n) := (hc'.fsck.header j n _ hc'.index hc'.entry_new).2
  have hlen : FileLength f.hdr = SectorSize := hc.size
  have hfirst : sector (d₃ n) 0 = sector f.hdr 0 :=
    same_first_sector hok' hok hc'.size hc.size fun x hx => (hdata x).mpr hx
  let src : Buffer := fun _ => byteAt d₃ (d₃ n) 0 + 1#8
  obtain ⟨r,hrun,_,hw⟩ := WriteAt_ok hok d₃ src (n := 1) (p := 0) (zeros 0) (zeros 1) (zeros 2)
    (by decide)
  have hheader : r.2 n = d₃ n := by
    refine hw.frame_data fun hn => ?_
    have hown := hc'.fsck.sectors.share_nodup hc'.index
    rw [hc'.share_eq,List.nodup_cons] at hown
    exact hown.1 ((hdata n).mp hn)
  have hbyte : byteAt r.2 (d₃ n) 0 = src 0 := by
    have hx := hw.content 0 (by rw [show numBytes f.hdr = SectorSize from hc.size]; decide)
    rw [hlen] at hx
    simp only [byteAt,Nat.zero_div,hfirst] at hx ⊢
    rw [hx]
    rfl
  let handles : ℕ → Option Handle := Function.update (fun _ => none) 0 (some ⟨n,f,false⟩)
  refine ⟨⟨d₀,fs,fun _ => none⟩,⟨d₃,fs,handles⟩,⟨r.2,fs,handles⟩,⟨n,f,false⟩,j,n,
    ⟨⟨_,zeros,hformat⟩,rfl⟩,?_,by simp [handles],hc'.index,?_,hc'.entry_new,
    ⟨src,bind_ok.mpr ⟨r,hrun,rfl⟩⟩,?_⟩
  · refine machine.run_cons_ok.mpr ⟨_,step_create hcreate _,?_⟩
    refine machine.run_cons_ok.mpr ⟨_,step_openFile hc hm₁ zeros,?_⟩
    refine machine.run_cons_ok.mpr ⟨_,hremove,?_⟩
    exact machine.run_cons_ok.mpr ⟨_,step_create hcreate' _,rfl⟩
  · rintro ⟨hlive,_⟩
    cases hlive
  · simp only [Int.toNat_natCast]
    rw [hheader]
    intro heq
    have hzero : 0 < (numBytes (d₃ n)).toNat := by
      rw [hc'.size]
      decide
    have hget := congrArg (fun l => l[0]?) heq
    simp only [content,bytes,List.getElem?_map,List.getElem?_range hzero,Option.map_some,hbyte,
      Option.some.injEq] at hget
    exact absurd hget (by simp [src])

end Handles
end FileSystem
end NachOS
