import NachOS.DiskCreate

/-! Sizes that no header can describe: `Create` compares the size it is given with the clear
sectors of the disk, not with the sector table of the header. -/
namespace NachOS

open StateMachine Memory FileHeader

namespace FileHeader

variable {m : Bitmap} {size : ℤ}

theorem Allocate_few (hdr : Buffer) (h₁ : -2 ^ 31 ≤ size) (h₂ : size < 2 ^ 31)
    (hfew : ((m.clear m.numBits).card : ℤ) < divRoundUp size SectorSize) :
    ∃ hdr', Allocate hdr m size = .ok (false,hdr',m) := by
  rw [Allocate_eq hdr m h₁ h₂,if_pos hfew]
  exact ⟨_,rfl⟩

/-- With enough clear sectors the table of a header is overrun. -/
theorem Allocate_overflows (hdr : Buffer) (hm : m.numBits = NumSectors)
    (hbig : (MaxFileSize : ℤ) < size) (h₂ : size < 2 ^ 31)
    (hroom : divRoundUp size SectorSize ≤ (m.clear m.numBits).card) :
    Allocate hdr m size = .error .undefined := by
  simp only [MaxFileSize,NumDirect,SectorSize] at hbig
  have hround := divRoundUp_ok (n := size) (by omega)
  have hmany : NumDirect < 0 + (divRoundUp size SectorSize).toNat := by
    simp only [SectorSize,NumDirect] at hround ⊢
    omega
  rw [Allocate_eq hdr m (by omega) h₂,if_neg (by omega),
    allocate_overflows hm (by omega) hmany (by omega)]
  rfl

/-- A negative size is allocated without taking a sector. -/
theorem Allocate_negative (hdr : Buffer) (h₁ : -2 ^ 31 ≤ size) (hneg : size < 0) :
    Allocate hdr m size = .ok (true,sized hdr size,m) := by
  have hround := divRoundUp_neg hneg
  rw [Allocate_eq hdr m h₁ (by omega),if_neg (by omega),
    show (divRoundUp size SectorSize).toNat = 0 by omega]
  rfl

end FileHeader

namespace FileSystem

variable {d d' : Disk} {fs : FileSystem} {i s : ℕ} {name t' : Buffer} {size : ℤ} {m₁ : Bitmap}

/-- The sizes that a header can describe. -/
def Describable (size : ℤ) : Prop := 0 ≤ size ∧ size ≤ MaxFileSize

/-- The call refuses a size that no header can describe, never leaves the sector table, and
the headers on the disk after it describe their files. -/
structure Bounded (fs : FileSystem) (d : Disk) (name : Buffer) (size : ℤ) (junk : ℕ → Buffer) :
    Prop where
  refused : ¬ Describable size → fs.Create d name size junk = .ok (false,d)
  table : fs.Create d name size junk ≠ .error .undefined
  headers : ∀ success d', fs.Create d name size junk = .ok (success,d') →
    ∀ i s k, i < NumDirEntries → entry d' i = some (s,k) → Ok (d' s.toNat)

/-- Grounds for a refusal that have nothing to do with the sector table. -/
def OtherGrounds (d : Disk) (name : Buffer) (size : ℤ) : Prop :=
  (∃ j s, j < NumDirEntries ∧ entry d j = some (s,Directory.key name)) ∨
  (∀ j, j < NumDirEntries → entry d j ≠ none) ∨
  ((clearBits d).card : ℤ) < 1 + max 0 ((size + (SectorSize - 1)) / SectorSize)

theorem max_divRoundUp (size : ℤ) : max 0 (divRoundUp size SectorSize) =
    max 0 ((size + (SectorSize - 1)) / SectorSize) := by
  by_cases h : 0 ≤ size
  · rw [divRoundUp_ok h]
  · have hneg := divRoundUp_neg (n := size) (by omega)
    simp only [SectorSize] at hneg ⊢
    omega

/-- Where `Create` goes on to allocate, it refuses on these grounds if the sectors are few. -/
theorem Prepared.otherGrounds_iff (h : Fsck d) (hp : Prepared d name i s t' m₁) :
    OtherGrounds d name size ↔
      ((m₁.clear m₁.numBits).card : ℤ) < divRoundUp size SectorSize := by
  have hcount := hp.count
  have hclear := h.card_clearBits
  have hmax := max_divRoundUp size
  have hfew : ((clearBits d).card : ℤ) < 1 + max 0 ((size + (SectorSize - 1)) / SectorSize) ↔
      ((m₁.clear m₁.numBits).card : ℤ) < divRoundUp size SectorSize := by
    rw [← hmax]
    omega
  rw [← hfew]
  refine ⟨?_,fun hspace => Or.inr (Or.inr hspace)⟩
  rintro (⟨j,s',hj,he⟩ | hfull | hspace)
  · exact absurd he (hp.new j s' hj)
  · exact absurd hp.free (hfull i hp.index)
  · exact hspace

theorem Create_otherGrounds (h : Fsck d) (hm : Mounted fs d) (h₁ : -2 ^ 31 ≤ size)
    (h₂ : size < 2 ^ 31) (junk : ℕ → Buffer) (hg : OtherGrounds d name size) :
    fs.Create d name size junk = .ok (false,d) := by
  rcases Create_prepared h hm name size junk with ⟨hno,_⟩ | ⟨i,s,t',m₁,hp,hrun⟩
  · exact hno
  · obtain ⟨hdr',halloc⟩ := Allocate_few (junk 3) h₁ h₂ ((hp.otherGrounds_iff h).mp hg)
    rw [hrun]
    exact bind_ok.mpr ⟨_,halloc,rfl⟩

/-- Without such grounds `Create` allocates, with enough clear sectors. -/
theorem prepared_of_no_grounds (h : Fsck d) (hm : Mounted fs d) (junk : ℕ → Buffer)
    (hg : ¬ OtherGrounds d name size) : ∃ i s t' m₁, Prepared d name i s t' m₁ ∧
      fs.Create d name size junk = (Allocate (junk 3) m₁ size >>= fs.store d s t' junk) ∧
      divRoundUp size SectorSize ≤ (m₁.clear m₁.numBits).card := by
  rcases Create_prepared h hm name size junk with
    ⟨_,htaken | hfull | hspace⟩ | ⟨i,s,t',m₁,hp,hrun⟩
  · exact absurd (Or.inl htaken) hg
  · exact absurd (Or.inr (Or.inl hfull)) hg
  · have hclear := h.card_clearBits
    exact absurd (Or.inr (Or.inr (by omega))) hg
  · rw [hp.otherGrounds_iff h,not_lt] at hg
    exact ⟨i,s,t',m₁,hp,hrun,hg⟩

/-- A size that is too large then leaves the sector table. -/
theorem Create_overflows (h : Fsck d) (hm : Mounted fs d) (hbig : (MaxFileSize : ℤ) < size)
    (h₂ : size < 2 ^ 31) (junk : ℕ → Buffer) (hg : ¬ OtherGrounds d name size) :
    fs.Create d name size junk = .error .undefined := by
  obtain ⟨i,s,t',m₁,hp,hrun,hroom⟩ := prepared_of_no_grounds h hm junk hg
  rw [hrun,Allocate_overflows (junk 3) hp.numBits hbig h₂ hroom]
  rfl

/-- For a negative size a file of that length is made. -/
theorem Create_negative (h : Fsck d) (hm : Mounted fs d) (h₁ : -2 ^ 31 ≤ size) (hneg : size < 0)
    (junk : ℕ → Buffer) (hg : ¬ OtherGrounds d name size) :
    ∃ (d' : Disk) (i s : ℕ), fs.Create d name size junk = .ok (true,d') ∧ i < NumDirEntries ∧
      entry d' i = some ((s : ℤ),Directory.key name) ∧ numBytes (d' s) = size := by
  obtain ⟨i,s,t',m₁,hp,hrun,_⟩ := prepared_of_no_grounds h hm junk hg
  obtain ⟨b,d',hstore,hb,hr⟩ := store_ok h hm hp (sized (junk 3) size) hp.numBits junk
  have hentry : entry d' i = some ((s : ℤ),Directory.key name) := by
    rw [hr.entry_eq (h.update_systemOk hp.clear b) hp.index,hp.entries i hp.index,if_pos rfl]
  have hbytes : numBytes (d' s) = numBytes (sized (junk 3) size) := by
    rw [h.stored hp.clear hr]
    exact int_congr fun k _ hk => hb k (by simp only [SectorSize]; omega)
  refine ⟨d',i,s,?_,hp.index,hentry,hbytes.trans (numBytes_sized (junk 3) h₁ (by omega))⟩
  rw [hrun]
  exact bind_ok.mpr ⟨_,Allocate_negative (junk 3) h₁ hneg,hstore⟩

theorem bounded_of_refused (h : Fsck d) {junk : ℕ → Buffer}
    (hrun : fs.Create d name size junk = .ok (false,d)) : Bounded fs d name size junk := by
  refine ⟨fun _ => hrun,?_,fun success d' hrun' i s k hi he => ?_⟩
  · rw [hrun]
    nofun
  · cases hrun.symm.trans hrun'
    exact (h.header i s k hi he).2

theorem bounded_of_describable (h : Fsck d) (hm : Mounted fs d) (hsize : Describable size)
    (junk : ℕ → Buffer) : Bounded fs d name size junk := by
  rcases Create_ok h hm name hsize.1 hsize.2 junk with ⟨hno,_⟩ | ⟨d',i,s,hyes,hc,_⟩
  · exact bounded_of_refused h hno
  · refine ⟨fun hno => absurd hsize hno,?_,fun success e hrun j s' k hj he => ?_⟩
    · rw [hyes]
      nofun
    · cases hyes.symm.trans hrun
      exact (hc.fsck.header j s' k hj he).2

/-- For every consistent disk, name and `int` size: sizes that no header can describe are
refused, and the sector table is not left, exactly if the size is one that a header can
describe or the request is refused on other grounds anyway. -/
theorem create_bounded_iff (h : Fsck d) (hm : Mounted fs d) (name : Buffer) (h₁ : -2 ^ 31 ≤ size)
    (h₂ : size < 2 ^ 31) (junk : ℕ → Buffer) :
    Bounded fs d name size junk ↔ 0 ≤ size ∧ size ≤ MaxFileSize ∨
      (∃ j s, j < NumDirEntries ∧ entry d j = some (s,Directory.key name)) ∨
      (∀ j, j < NumDirEntries → entry d j ≠ none) ∨
      ((clearBits d).card : ℤ) < 1 + max 0 ((size + (SectorSize - 1)) / SectorSize) := by
  change _ ↔ Describable size ∨ OtherGrounds d name size
  constructor
  · intro hb
    by_contra hno
    rw [not_or] at hno
    have hrefused := hb.refused hno.1
    by_cases hneg : size < 0
    · obtain ⟨d',_,_,hrun,_⟩ := Create_negative h hm h₁ hneg junk hno.2
      cases hrefused.symm.trans hrun
    · have hbig : (MaxFileSize : ℤ) < size := by
        by_contra hle
        exact hno.1 ⟨by omega,by omega⟩
      exact hb.table (Create_overflows h hm hbig h₂ junk hno.2)
  · rintro (hsize | hg)
    · exact bounded_of_describable h hm hsize junk
    · exact bounded_of_refused h (Create_otherGrounds h hm h₁ h₂ junk hg)

/-- For example the largest file, on a formatted disk. -/
theorem create_bounded_iff_largest : ∃ (fs : FileSystem) (d : Disk), Fsck d ∧ Mounted fs d ∧
    Bounded fs d (letter 97#8) MaxFileSize (fun _ _ => 0#8) := by
  obtain ⟨fs,d,_,hfsck,hm,_,_⟩ := format_ok (fun _ _ => 0#8) fun _ _ => 0#8
  refine ⟨fs,d,hfsck,hm,(create_bounded_iff hfsck hm _ (by decide) (by decide) _).mpr ?_⟩
  exact Or.inl (by decide)

/-- On a formatted disk one byte more overruns the sector table, and a file of length -1 is
made. -/
theorem create_not_bounded : ∃ (fs : FileSystem) (d d' : Disk) (i s : ℕ),
    Fsck d ∧ Mounted fs d ∧
    fs.Create d (letter 97#8) (MaxFileSize + 1) (fun _ _ => 0#8) = .error .undefined ∧
    fs.Create d (letter 97#8) (-1) (fun _ _ => 0#8) = .ok (true,d') ∧
    entry d' i = some ((s : ℤ),[97#8]) ∧ numBytes (d' s) = -1 := by
  obtain ⟨fs,d,_,hfsck,hm,hempty,hlen⟩ := format_ok (fun _ _ => 0#8) fun _ _ => 0#8
  have hclear := hfsck.card_clearBits
  have hgrounds : ∀ size : ℤ, size ≤ MaxFileSize + 1 →
      ¬ OtherGrounds d (letter 97#8) size := by
    rintro size hsize (⟨j,s,hj,he⟩ | hfull | hspace)
    · rw [hempty j hj] at he
      cases he
    · exact hfull 0 (by decide) (hempty 0 (by decide))
    · simp only [NumSectors,SectorSize,MaxFileSize,NumDirect] at hclear hspace hsize
      omega
  have hbig := Create_overflows hfsck hm (by decide) (by decide) (fun _ _ => 0#8)
    (hgrounds (MaxFileSize + 1) le_rfl)
  obtain ⟨d',i,s,hrun,_,he,hbytes⟩ := Create_negative hfsck hm (by decide) (by decide)
    (fun _ _ => 0#8) (hgrounds (-1) (by decide))
  exact ⟨fs,d,d',i,s,hfsck,hm,hbig,hrun,he,hbytes⟩

end FileSystem
end NachOS
