import NachOS.Fsck

/-! When `Create` of the disk file system succeeds, and what it leaves alone. -/
namespace NachOS
namespace FileSystem

open StateMachine Memory FileHeader OpenFile FileArray

variable {d d' : Disk} {fs : FileSystem} {i j n s : ℕ} {name : Buffer} {size : ℤ}

/-- The sectors whose bit in the free map on the disk is clear. -/
def clearBits (d : Disk) : Finset ℕ := (Finset.range NumSectors).filter fun n =>
  PersistentBitmap.bit (byteAt d (d FreeMapSector)) n = false

/-- The file of entry `j` has its entry, its header and its bytes as before. -/
structure Kept (d d' : Disk) (j : ℕ) : Prop where
  entry : entry d' j = entry d j
  header : ∀ s k, FileSystem.entry d j = some (s,k) → d' s.toNat = d s.toNat
  content : ∀ s k, FileSystem.entry d j = some (s,k) →
    content d' (d' s.toNat) = content d (d s.toNat)

theorem mem_clearBits : n ∈ clearBits d ↔ n < NumSectors ∧ ¬ Marked d n := by
  rw [clearBits,Finset.mem_filter,Finset.mem_range]
  refine and_congr_right fun hn => ?_
  simp [Marked,hn]

/-- Every sector is clear, or something on the disk refers to it. -/
theorem Fsck.card_clearBits (h : Fsck d) : (clearBits d).card + (owned d).length = NumSectors := by
  have hclear : clearBits d = Finset.range NumSectors \ (owned d).toFinset := by
    ext n
    rw [mem_clearBits,Finset.mem_sdiff,Finset.mem_range,List.mem_toFinset,h.sectors.marked_iff]
  have hsub : (owned d).toFinset ⊆ Finset.range NumSectors := by
    intro n hn
    have hmark := (h.sectors.marked_iff n).mpr (List.mem_toFinset.mp hn)
    exact Finset.mem_range.mpr hmark.1
  have hcard := Finset.card_sdiff_add_card_eq_card hsub
  rw [List.toFinset_card_of_nodup h.sectors.nodup,Finset.card_range] at hcard
  rw [hclear]
  exact hcard

theorem refused_iff (h : Fsck d) : Refused d name size ↔
    (∃ j s, j < NumDirEntries ∧ entry d j = some (s,Directory.key name)) ∨
    (∀ j, j < NumDirEntries → entry d j ≠ none) ∨
    ((clearBits d).card : ℤ) < 1 + (size + (SectorSize - 1)) / SectorSize := by
  have hcard := h.card_clearBits
  rw [Refused]
  refine or_congr_right (or_congr_right ?_)
  omega

/-- A file whose entry and sectors are as before is kept. -/
theorem Fsck.kept (h : Fsck d) (hj : j < NumDirEntries) (hentry : entry d' j = entry d j)
    (hshare : ∀ n ∈ share d j, d' n = d n) : Kept d d' j := by
  have hheader : ∀ s k, entry d j = some (s,k) → d' s.toNat = d s.toNat := by
    intro s k he
    exact hshare _ (Fsck.mem_share he (Or.inl rfl))
  refine ⟨hentry,hheader,fun s k he => ?_⟩
  rw [hheader s k he]
  refine content_congr _ (h.header j s k hj he).2 fun b hb => ?_
  exact hshare _ (Fsck.mem_share he (Or.inr (mem_data.mpr ⟨b,hb,rfl⟩)))

namespace Created

theorem share_eq (hc : Created d d' name size i s) : share d' i = s :: data (d' s) := by
  rw [share_of_entry hc.entry_new,Int.toNat_natCast]

/-- The other files are as before. -/
theorem kept (h : Fsck d) (hc : Created d d' name size i s) (hj : j < NumDirEntries)
    (hne : j ≠ i) : Kept d d' j := by
  have hs : ¬ Marked d s := by
    apply hc.clear
    rw [hc.share_eq]
    exact List.mem_cons_self
  refine h.kept hj (by rw [hc.entries j hj,if_neg hne]) fun n hn => ?_
  have hmark := (h.sectors.marked_iff n).mpr (Inventory.mem_total.mpr (Or.inr ⟨j,hj,hn⟩))
  refine hc.frame n ?_ (h.sectors.share_base hj hn)
  intro he
  exact hs (he ▸ hmark)

/-- The bits that are set now and were clear are those of the new file's sectors. -/
theorem clearBits_sdiff (hc : Created d d' name size i s) :
    clearBits d' ⊆ clearBits d ∧ clearBits d \ clearBits d' = (share d' i).toFinset := by
  constructor
  · intro n hn
    rw [mem_clearBits] at hn ⊢
    exact ⟨hn.1,fun hmark => hn.2 ((hc.marks n).mpr (Or.inl hmark))⟩
  · ext n
    rw [Finset.mem_sdiff,mem_clearBits,mem_clearBits,List.mem_toFinset,hc.marks]
    constructor
    · rintro ⟨⟨hlt,hold⟩,hnew⟩
      by_contra hn
      exact hnew ⟨hlt,fun hmark => hmark.elim hold hn⟩
    · intro hn
      have hmark := (hc.marks n).mpr (Or.inr hn)
      exact ⟨⟨hmark.1,hc.clear n hn⟩,fun hno => hno.2 (Or.inr hn)⟩

theorem card_taken (hc : Created d d' name size i s) :
    ((clearBits d \ clearBits d').card : ℤ) = 1 + (size + (SectorSize - 1)) / SectorSize := by
  have hnodup := hc.fsck.sectors.share_nodup hc.index
  have hok : Ok (d' s) := (hc.fsck.header i s _ hc.index hc.entry_new).2
  have hlen := hok.length_data
  rw [hc.size] at hlen
  rw [hc.clearBits_sdiff.2,List.toFinset_card_of_nodup hnodup,hc.share_eq,List.length_cons]
  omega

/-- What `Create` refuses could not have been created. -/
theorem not_refused (h : Fsck d) (hc : Created d d' name size i s) : ¬ Refused d name size := by
  rw [refused_iff h]
  rintro (⟨j,s',hj,he⟩ | hfull | hspace)
  · exact hc.new j s' hj he
  · exact hfull i hc.index hc.free
  · have hcard := hc.card_taken
    have hle := Finset.card_le_card (Finset.sdiff_subset (s := clearBits d) (t := clearBits d'))
    omega

end Created

/-- `Create` never faults.  It fails exactly if the name is taken, the directory is full,
or the clear sectors do not suffice for the header and the data, and then the disk is as
before.  Otherwise the file can be opened with the size asked for, the other files are as
before, and only the bits of its sectors changed. -/
theorem create_exact (h : Fsck d) (hm : Mounted fs d) (name : Buffer) (size : ℤ)
    (h₀ : 0 ≤ size) (h₁ : size ≤ MaxFileSize) (junk : ℕ → Buffer) :
    ∃ success d', fs.Create d name size junk = .ok (success,d') ∧
      (success = false ↔
        (∃ j s, j < NumDirEntries ∧ entry d j = some (s,Directory.key name)) ∨
        (∀ j, j < NumDirEntries → entry d j ≠ none) ∨
        ((clearBits d).card : ℤ) < 1 + (size + (SectorSize - 1)) / SectorSize) ∧
      (success = false → d' = d) ∧
      (success = true → Fsck d' ∧ Mounted fs d' ∧
        (∀ junk', ∃ f, fs.Open d' name junk' = .ok (some f) ∧ FileLength f.hdr = size) ∧
        (∃ i, i < NumDirEntries ∧ entry d i = none ∧
          ∀ j, j < NumDirEntries → j ≠ i → Kept d d' j) ∧
        clearBits d' ⊆ clearBits d ∧
        ((clearBits d \ clearBits d').card : ℤ) =
          1 + (size + (SectorSize - 1)) / SectorSize) := by
  rw [← refused_iff h]
  rcases Create_ok h hm name h₀ h₁ junk with ⟨hno,hrefused⟩ | ⟨d',i,s,hyes,hc,hm'⟩
  · refine ⟨false,d,hno,?_,fun _ => rfl,?_⟩
    · simp [hrefused]
    · intro hfalse
      cases hfalse
  · refine ⟨true,d',hyes,?_,?_,fun _ => ⟨hc.fsck,hm',?_,?_,hc.clearBits_sdiff.1,hc.card_taken⟩⟩
    · simp [hc.not_refused h]
    · intro hfalse
      cases hfalse
    · intro junk'
      exact ⟨_,hc.opens hm' junk',hc.size⟩
    · exact ⟨i,hc.index,hc.free,fun j hj hne => hc.kept h hj hne⟩

/-- For example on every formatted disk, where a file of 200 bytes takes three sectors. -/
theorem create_exact_formatted : ∃ fs d d', Fsck d ∧ Mounted fs d ∧
    fs.Create d (letter 97#8) 200 (fun _ _ => 0#8) = .ok (true,d') ∧
    (clearBits d \ clearBits d').card = 3 := by
  obtain ⟨fs,d,_,hfsck,hm,hempty,hlen⟩ := format_ok (fun _ _ => 0#8) fun _ _ => 0#8
  obtain ⟨success,d',hrun,hiff,_,htrue⟩ := create_exact hfsck hm
    (letter 97#8) 200 (by decide) (by decide) fun _ _ => 0#8
  have hcard := hfsck.card_clearBits
  have hyes : success = true := by
    by_contra hno
    rcases hiff.mp (by simpa using hno) with ⟨j,s,hj,he⟩ | hfull | hspace
    · rw [hempty j hj] at he
      cases he
    · exact hfull 0 (by decide) (hempty 0 (by decide))
    · simp only [NumSectors,SectorSize] at hcard hspace
      omega
  have htaken := (htrue hyes).2.2.2.2.2
  rw [hyes] at hrun
  refine ⟨fs,d,d',hfsck,hm,hrun,?_⟩
  simp only [SectorSize] at htaken
  omega

end FileSystem
end NachOS
