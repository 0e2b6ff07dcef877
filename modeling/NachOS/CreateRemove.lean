import NachOS.DiskCreate

/-! Creating a file and removing it again gives back the free map and the directory. -/
namespace NachOS
namespace FileSystem

open StateMachine Memory FileHeader OpenFile FileArray

variable {d d₁ d₂ : Disk} {fs : FileSystem} {i j s : ℕ} {name : Buffer} {size : ℤ}

theorem Kept.trans (h₁ : Kept d d₁ j) (h₂ : Kept d₁ d₂ j) : Kept d d₂ j := by
  refine ⟨h₂.entry.trans h₁.entry,fun s k he => ?_,fun s k he => ?_⟩
  · rw [h₂.header s k (h₁.entry.trans he),h₁.header s k he]
  · rw [h₂.content s k (h₁.entry.trans he),h₁.content s k he]

/-- The marks of the sectors are all that the free map has in its file. -/
theorem Fsck.content_freeMap (h : Fsck d) (hheader : d₂ FreeMapSector = d FreeMapSector)
    (hmarks : ∀ n, Marked d₂ n ↔ Marked d n) :
    content d₂ (d₂ FreeMapSector) = content d (d FreeMapSector) := by
  rw [hheader]
  apply List.map_congr_left
  intro x hx
  rw [List.mem_range,h.freeMap.2,Int.toNat_natCast] at hx
  apply BitVec.eq_of_getLsbD_eq
  intro l hl
  have hn : 8 * x + l < NumSectors := by
    simp only [FreeMapFileSize,NumSectors] at hx ⊢
    omega
  have hbit := hmarks (8 * x + l)
  simp only [Marked,PersistentBitmap.bit,hheader,hn,true_and,show (8 * x + l) / 8 = x by omega,
    show (8 * x + l) % 8 = l by omega] at hbit
  exact Bool.eq_iff_iff.mpr hbit

/-- Creating a file and removing it again leaves the same sectors clear. -/
theorem marked_of_removed (hc : Created d d₁ name size i s) (hr : Removed d₁ d₂ i) (n : ℕ) :
    Marked d n ↔ Marked d₂ n := by
  rw [hr.marks,hc.marks]
  constructor
  · intro hmark
    exact ⟨Or.inl hmark,fun hn => hc.clear n hn hmark⟩
  · rintro ⟨hmark | hn,hnot⟩
    · exact hmark
    · exact absurd hn hnot

/-- Outside of its two files the file system is as before. -/
theorem Rewritten.kept {t : Buffer} {m : Bitmap} (h : Fsck d) (hr : Rewritten d d₁ t m)
    (hj : j < NumDirEntries) (hentry : entry d₁ j = entry d j) : Kept d d₁ j := by
  exact h.kept hj hentry fun n hn => hr.frame_system (h.sectors.share_base hj hn)

namespace Created

/-- The new file is found and removed. -/
theorem removes (hc : Created d d₁ name size i s) (hm : Mounted fs d₁) (junk : ℕ → Buffer) :
    ∃ d₂ t m, fs.Remove d₁ name junk = .ok (true,d₂) ∧ Removed d₁ d₂ i ∧ Mounted fs d₂ ∧
      Rewritten d₁ d₂ t m := by
  rcases Remove_rewrites hc.fsck hm name junk with
    ⟨_,hnone⟩ | ⟨d₂,j,s',t,m,hrun,hj,he,hr,hm₂,hw⟩
  · exact absurd hc.entry_new (hnone i s hc.index)
  · have hji := namesDistinct_iff.mpr hc.fsck.names j i s' s _ hj hc.index he hc.entry_new
    exact ⟨d₂,t,m,hrun,hji ▸ hr,hm₂,hw⟩

theorem entry_removed (hc : Created d d₁ name size i s) (hr : Removed d₁ d₂ i)
    (hj : j < NumDirEntries) : entry d₂ j = entry d j := by
  rw [hr.entries j hj,hc.entries j hj]
  split_ifs with hji
  · rw [hji,hc.free]
  · rfl

theorem kept_removed (h : Fsck d) (hc : Created d d₁ name size i s) (hr : Removed d₁ d₂ i)
    {t : Buffer} {m : Bitmap} (hw : Rewritten d₁ d₂ t m) (hj : j < NumDirEntries) :
    Kept d d₂ j := by
  have hentry := hc.entry_removed hr hj
  by_cases hji : j = i
  · have hnone : entry d j = none := hji ▸ hc.free
    refine ⟨hentry,fun s k he => ?_,fun s k he => ?_⟩ <;> cases hnone.symm.trans he
  · have hkept := hc.kept h hj hji
    exact hkept.trans (hw.kept hc.fsck hj (hentry.trans hkept.entry.symm))

/-- What `Remove` reads of the new file, and each sector that `Deallocate` tests. -/
theorem deallocates (hc : Created d d₁ name size i s) (hm : Mounted fs d₁) (junk : ℕ → Buffer) :
    ∃ sector hdr freeMap, fs.lookup d₁ name junk = .ok sector ∧ FetchFrom d₁ sector = .ok hdr ∧
      PersistentBitmap.new fs.freeMapFile d₁ NumSectors (junk 2) = .ok freeMap ∧
      ∀ n : ℕ, (n : ℤ) < numSectors hdr →
        ∃ m, deallocate hdr freeMap n = .ok m ∧ m.Test (dataSectors hdr n) = .ok true := by
  obtain ⟨m,hmap,hbits,hmark⟩ := readMap_ok hc.fsck.systemOk hm (junk 2)
  have hok := (hc.fsck.header i s _ hc.index hc.entry_new).2
  have hlt := (hc.fsck.sector_lt hc.index hc.entry_new).1
  rw [Int.toNat_natCast] at hok hlt
  have hmarked : ∀ n ∈ data (d₁ s), m.bit n = true := by
    intro n hn
    refine (hmark n (hok.data_lt n hn)).mpr ((hc.marks n).mpr (Or.inr ?_))
    rw [hc.share_eq]
    exact List.mem_cons_of_mem s hn
  refine ⟨s,d₁ s,m,hc.lookup hm junk,FetchFrom_ok d₁ hlt,hmap,fun n hn => ?_⟩
  obtain ⟨m₁,hrun,hn₁,hbit⟩ := deallocate_ok hok hbits hmarked hn.le
  exact ⟨m₁,hrun,Test_next hok (hn₁.trans hbits) hmarked hn hbit⟩

end Created

/-- `Remove` after `Create`: the bytes of the free map and the entries are those before, the
other files are as they were, and every sector of the new file was found marked. -/
theorem create_remove (h : Fsck d) (hm : Mounted fs d) (h₀ : 0 ≤ size) (h₁ : size ≤ MaxFileSize)
    {junk : ℕ → Buffer} (hcreate : fs.Create d name size junk = .ok (true,d₁))
    (junk' : ℕ → Buffer) :
    ∃ d₂, fs.Remove d₁ name junk' = .ok (true,d₂) ∧ Fsck d₂ ∧ Mounted fs d₂ ∧
      (∀ n, Marked d₂ n ↔ Marked d n) ∧
      content d₂ (d₂ FreeMapSector) = content d (d FreeMapSector) ∧
      (∀ e, (∃ j < NumDirEntries, entry d₂ j = some e) ↔
        ∃ j < NumDirEntries, entry d j = some e) ∧
      (∀ j < NumDirEntries, Kept d d₂ j) ∧
      ∃ sector hdr freeMap, fs.lookup d₁ name junk' = .ok sector ∧
        FetchFrom d₁ sector = .ok hdr ∧
        PersistentBitmap.new fs.freeMapFile d₁ NumSectors (junk' 2) = .ok freeMap ∧
        ∀ n : ℕ, (n : ℤ) < numSectors hdr →
          ∃ m, deallocate hdr freeMap n = .ok m ∧ m.Test (dataSectors hdr n) = .ok true := by
  rcases Create_ok h hm name h₀ h₁ junk with ⟨hno,_⟩ | ⟨d',i,s,hyes,hc,hm₁⟩
  · cases hno.symm.trans hcreate
  obtain ⟨_,rfl⟩ := Prod.mk.inj (Except.ok.inj (hyes.symm.trans hcreate))
  obtain ⟨d₂,t,m,hrun,hr,hm₂,hw⟩ := hc.removes hm₁ junk'
  have hmarks : ∀ n, Marked d₂ n ↔ Marked d n := fun n => (marked_of_removed hc hr n).symm
  refine ⟨d₂,hrun,hr.fsck,hm₂,hmarks,h.content_freeMap (hm₂.freeMap.symm.trans hm.freeMap) hmarks,
    fun e => ?_,fun j hj => hc.kept_removed h hr hw hj,hc.deallocates hm₁ junk'⟩
  refine exists_congr fun j => and_congr_right fun hj => ?_
  rw [hc.entry_removed hr hj]

/-- A file of 200 bytes on a formatted disk. -/
theorem create_remove_formatted : ∃ (fs : FileSystem) (d d₁ d₂ : Disk), Fsck d ∧
    fs.Create d (letter 97#8) 200 (fun _ _ => 0#8) = .ok (true,d₁) ∧
    fs.Remove d₁ (letter 97#8) (fun _ _ => 0#8) = .ok (true,d₂) ∧
    content d₂ (d₂ FreeMapSector) = content d (d FreeMapSector) := by
  obtain ⟨fs,d,_,hfsck,hm,hempty,_⟩ := format_ok (fun _ _ => 0#8) fun _ _ => 0#8
  obtain ⟨d₁,_,_,hcreate,_⟩ := create_empty hfsck hm hempty (letter 97#8) 200 (by decide)
    (by decide) fun _ _ => 0#8
  obtain ⟨d₂,hremove,_,_,_,hmap,_⟩ := create_remove hfsck hm (by decide) (by decide) hcreate
    fun _ _ => 0#8
  exact ⟨fs,d,d₁,d₂,hfsck,hcreate,hremove,hmap⟩

end FileSystem
end NachOS
