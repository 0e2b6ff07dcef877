import NachOS.Fsck

/-! How `ReadAt` and `WriteAt` of the disk file system clip a request to the file, for all
values of their `int` arguments. -/
namespace NachOS
namespace OpenFile

open StateMachine Memory FileHeader FileSystem

/-- The indices of `dataSectors` that a transfer goes through, from `firstSector` to
`lastSector`.  The reads inside `WriteAt` use the first and the last of them. -/
def tableIndices (fileLength numBytes position : ℤ) : List ℤ :=
  if numBytes ≤ 0 ∨ position ≥ fileLength then []
  else
    let numBytes :=
      if wrap (position + numBytes) > fileLength then wrap (fileLength - position) else numBytes
    let firstSector := position.tdiv SectorSize
    let lastSector := (wrap (wrap (position + numBytes) - 1)).tdiv SectorSize
    (List.range (1 + lastSector - firstSector).toNat).map fun i : ℕ => firstSector + i

/-- The request moves the bytes of the file that it asks for and no others, and stays inside
the sector table. -/
structure Clipped (f : OpenFile) (numBytes position : ℤ) : Prop where
  read : ∀ d into k buf, f.ReadAt d into k numBytes position buf =
    .ok (transferred (FileLength f.hdr) numBytes position,
      bcopy (byteAt d f.hdr) position.toNat into k (transferred (FileLength f.hdr) numBytes position).toNat)
  write : ∀ d src buf buf₁ buf₂, ∃ d', f.WriteAt d src numBytes position buf buf₁ buf₂ =
      .ok (transferred (FileLength f.hdr) numBytes position,d') ∧
    Written d d' f.hdr src position.toNat (transferred (FileLength f.hdr) numBytes position).toNat
  table : ∀ i ∈ tableIndices (FileLength f.hdr) numBytes position, 0 ≤ i ∧ i < NumDirect

variable {f : OpenFile} {numBytes position : ℤ}

/-- A refused request changes nothing. -/
theorem clipped_refused (h : numBytes ≤ 0 ∨ position ≥ FileLength f.hdr) :
    Clipped f numBytes position := by
  have hzero := transferred_refused h
  refine ⟨fun d into k buf => ?_,fun d src buf buf₁ buf₂ => ⟨d,?_,fun _ _ => rfl,?_⟩,?_⟩
  · rw [hzero,Int.toNat_zero,bcopy_zero]
    exact if_pos h
  · rw [hzero]
    exact if_pos h
  · intro x _
    rw [hzero,if_neg (by simp)]
  · intro i hi
    simp [tableIndices,h] at hi

/-- The sectors of a request that starts in the file are sectors of the file. -/
theorem table_of_request (h : Ok f.hdr) {p : ℕ} (hsum : p + numBytes < 2 ^ 31)
    (hreq : ¬ (numBytes ≤ 0 ∨ (p : ℤ) ≥ FileLength f.hdr)) :
    ∀ i ∈ tableIndices (FileLength f.hdr) numBytes p, 0 ≤ i ∧ i < NumDirect := by
  have hlen : FileLength f.hdr ≤ MaxFileSize := h.length_le
  obtain ⟨c,n,hr⟩ := request hlen hsum hreq
  have hle := (hr.sectors_le h).trans h.direct
  intro i hi
  simp only [tableIndices,if_neg hreq,hr.clipped,hr.stop,hr.first,hr.last,hr.sectors,
    Int.toNat_natCast,List.mem_map,List.mem_range] at hi
  obtain ⟨j,hj,rfl⟩ := hi
  simp only [SectorSize,NumDirect] at hle ⊢
  omega

theorem clipped_of_inFile (h : Ok f.hdr) (hin : InFile f numBytes position) :
    Clipped f numBytes position := by
  by_cases hreq : numBytes ≤ 0 ∨ position ≥ FileLength f.hdr
  · exact clipped_refused hreq
  have hpos : 0 ≤ position ∧ position + numBytes < 2 ^ 31 := by
    rcases hin with h₁ | h₂ | h₃
    · exact absurd (Or.inl h₁) hreq
    · exact absurd (Or.inr h₂) hreq
    · exact h₃
  obtain ⟨p,rfl⟩ := Int.eq_ofNat_of_zero_le hpos.1
  refine ⟨fun d into k buf => ?_,fun d src buf buf₁ buf₂ => ?_,
    table_of_request h hpos.2 hreq⟩
  · rw [Int.toNat_natCast]
    exact ReadAt_ok h d into k buf hpos.2
  · obtain ⟨⟨c,d'⟩,hrun,hc,hw⟩ := WriteAt_ok h d src buf buf₁ buf₂ hpos.2
    rw [Int.toNat_natCast]
    exact ⟨d',hc ▸ hrun,hw⟩

/-- The count that a read returns, if it returns. -/
theorem ReadAt_count {d : Disk} {into buf : Buffer} {k : ℕ} {r : ℤ × Buffer}
    (hreq : ¬ (numBytes ≤ 0 ∨ position ≥ FileLength f.hdr))
    (hrun : f.ReadAt d into k numBytes position buf = .ok r) :
    r.1 = if wrap (position + numBytes) > FileLength f.hdr
      then wrap (FileLength f.hdr - position) else numBytes := by
  simp only [ReadAt,if_neg hreq] at hrun
  obtain ⟨_,hrun⟩ := inBounds_bind_ok.mp hrun
  obtain ⟨_,_,hrun⟩ := bind_ok.mp hrun
  obtain ⟨_,hrun⟩ := inBounds_bind_ok.mp hrun
  cases hrun
  rfl

/-- Before the file the count is positive, and after a wrap-around it is the whole request. -/
theorem count_ne_transferred {fileLength : ℤ} (h₀ : 0 ≤ fileLength) (h₁ : fileLength ≤ MaxFileSize)
    (hn : 0 < numBytes ∧ numBytes < 2 ^ 31) (hp : -2 ^ 31 ≤ position ∧ position < fileLength)
    (hbad : position < 0 ∨ 2 ^ 31 ≤ position + numBytes) :
    (if wrap (position + numBytes) > fileLength then wrap (fileLength - position)
      else numBytes) ≠ transferred fileLength numBytes position := by
  simp only [MaxFileSize,NumDirect,SectorSize] at h₁
  unfold transferred
  by_cases hneg : position < 0
  · rw [wrap_of_range (by omega) (by omega),if_neg (show ¬ 0 ≤ position by omega)]
    by_cases hlong : position + numBytes > fileLength
    · rw [if_pos hlong,wrap_of_range (by omega) (by omega)]
      omega
    · rw [if_neg hlong]
      omega
  · rw [wrap_of_overflow (by omega) (by omega),if_neg (by omega),if_pos (by omega)]
    omega

theorem not_clipped (h : Ok f.hdr) (hn : 0 < numBytes ∧ numBytes < 2 ^ 31)
    (hp : -2 ^ 31 ≤ position ∧ position < FileLength f.hdr)
    (hbad : position < 0 ∨ 2 ^ 31 ≤ position + numBytes) : ¬ Clipped f numBytes position := by
  intro hc
  have hreq : ¬ (numBytes ≤ 0 ∨ position ≥ FileLength f.hdr) := by omega
  have hcount := ReadAt_count hreq (hc.read (fun _ _ => 0#8) (fun _ => 0#8) 0 fun _ => 0#8)
  have hlen : FileLength f.hdr ≤ MaxFileSize := h.length_le
  exact count_ne_transferred h.nonneg hlen hn hp hbad hcount.symm

/-- For all `int`s: a transfer is clipped to the file, and stays inside the sector table and
the buffer, exactly if it is refused or starts inside the file and does not overflow. -/
theorem transfer_clipped_iff (h : Ok f.hdr) (hn : -2 ^ 31 ≤ numBytes ∧ numBytes < 2 ^ 31)
    (hp : -2 ^ 31 ≤ position ∧ position < 2 ^ 31) :
    Clipped f numBytes position ↔ numBytes ≤ 0 ∨ position ≥ FileLength f.hdr ∨
      0 ≤ position ∧ position + numBytes < 2 ^ 31 := by
  refine ⟨fun hc => ?_,clipped_of_inFile h⟩
  by_contra hno
  refine not_clipped h ?_ ?_ ?_ hc
  · omega
  · omega
  · omega

/-- Reading 200 bytes at 100 from a file of 130 bytes. -/
theorem transfer_clipped_iff_end : ∃ f : OpenFile, Ok f.hdr ∧ FileLength f.hdr = 130 ∧
    Clipped f 200 100 ∧ transferred (FileLength f.hdr) 200 100 = 30 := by
  obtain ⟨s,sector,f,hs,hf,hlen⟩ := exists_open_file 130 (by decide) (by decide)
  have hok := (inv_reachable hs).hdr_ok hf
  refine ⟨f,hok,hlen,(transfer_clipped_iff hok (by decide) (by decide)).mpr ?_,?_⟩
  · exact Or.inr (Or.inr (by decide))
  · rw [hlen]
    decide

/-- A file of 128 bytes can be reached for which a read of one byte at -1 is not refused, nor
is one of `2 ^ 31 - 1` bytes at 1 clipped. -/
theorem transfer_not_clipped : ∃ s sector f, machine.Reachable s ∧
    s.files 0 = some (sector,f) ∧ FileLength f.hdr = 128 ∧
    ¬ Clipped f 1 (-1) ∧ ¬ Clipped f (2 ^ 31 - 1) 1 := by
  obtain ⟨s,sector,f,hs,hf,hlen⟩ := exists_open_file 128 (by decide) (by decide)
  have hok := (inv_reachable hs).hdr_ok hf
  have hneg : (-2 ^ 31 : ℤ) ≤ -1 ∧ -1 < FileLength f.hdr := by
    rw [hlen]
    decide
  have hone : (-2 ^ 31 : ℤ) ≤ 1 ∧ 1 < FileLength f.hdr := by
    rw [hlen]
    decide
  exact ⟨s,sector,f,hs.reachable,hf,hlen,not_clipped hok (by decide) hneg (by decide),
    not_clipped hok (by decide) hone (by decide)⟩

end OpenFile
end NachOS
