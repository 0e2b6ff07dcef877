import NachOS.FileHeader

/-! `OpenFile` of the disk file system (filesys/openfile.cc): transfers of any length and
at any offset, made of whole sectors. -/
namespace NachOS

open StateMachine Memory FileHeader

structure OpenFile where
  hdr : Buffer
  seekPosition : ℤ

namespace OpenFile

def new (d : Disk) (sector : ℤ) : Except Fault OpenFile := do
  return ⟨← FileHeader.FetchFrom d sector,0⟩

/-- Read `n` sectors of the file, from its sector `i` on, to `buf` from offset `k` on. -/
def readSectors (d : Disk) (hdr : Buffer) (i : ℤ) (k : ℕ) (buf : Buffer) :
    ℕ → Except Fault Buffer
  | 0 => return buf
  | n + 1 => do
    let sector ← ByteToSector hdr (i * SectorSize)
    let data ← d.ReadSector sector
    readSectors d hdr (i + 1) (k + SectorSize) (bcopy data 0 buf k SectorSize) n

/-- Write `n` sectors of the file, from its sector `i` on, from offset `k` of `buf` on. -/
def writeSectors (d : Disk) (hdr : Buffer) (i : ℤ) (k : ℕ) (buf : Buffer) :
    ℕ → Except Fault Disk
  | 0 => return d
  | n + 1 => do
    let sector ← ByteToSector hdr (i * SectorSize)
    let d ← d.WriteSector sector buf k
    writeSectors d hdr (i + 1) (k + SectorSize) buf n

/-- `ReadAt(&into[k], numBytes, position)`; `buf` is what the new buffer contains. -/
def ReadAt (f : OpenFile) (d : Disk) (into : Buffer) (k : ℕ) (numBytes position : ℤ)
    (buf : Buffer) : Except Fault (ℤ × Buffer) := do
  let fileLength := FileLength f.hdr
  if numBytes ≤ 0 ∨ position ≥ fileLength then
    return (0,into)
  else
    let numBytes :=
      if wrap (position + numBytes) > fileLength then wrap (fileLength - position) else numBytes
    let firstSector := position.tdiv SectorSize
    let lastSector := (wrap (wrap (position + numBytes) - 1)).tdiv SectorSize
    let numSectors := 1 + lastSector - firstSector
    inBounds (wrap (numSectors * SectorSize) = numSectors * SectorSize ∧ 0 ≤ numSectors)
    let buf ← readSectors d f.hdr firstSector 0 buf numSectors.toNat
    let offset := position - firstSector * SectorSize
    inBounds (0 ≤ offset ∧ 0 ≤ numBytes ∧ offset + numBytes ≤ numSectors * SectorSize)
    return (numBytes,bcopy buf offset.toNat into k numBytes.toNat)

/-- `if (b) ReadAt(&buf[k], SectorSize, position);` -/
def readIf (f : OpenFile) (d : Disk) (buf : Buffer) (k : ℕ) (position : ℤ) (junk : Buffer)
    (b : Prop) [Decidable b] : Except Fault Buffer :=
  if b then do
    let (_,buf) ← f.ReadAt d buf k SectorSize position junk
    return buf
  else
    return buf

/-- `WriteAt(from, numBytes, position)`; `buf`, `buf₁` and `buf₂` are what its buffer and
those of its two calls of `ReadAt` contain at first. -/
def WriteAt (f : OpenFile) (d : Disk) (src : Buffer) (numBytes position : ℤ)
    (buf buf₁ buf₂ : Buffer) : Except Fault (ℤ × Disk) := do
  let fileLength := FileLength f.hdr
  if numBytes ≤ 0 ∨ position ≥ fileLength then
    return (0,d)
  else
    let numBytes :=
      if wrap (position + numBytes) > fileLength then wrap (fileLength - position) else numBytes
    let firstSector := position.tdiv SectorSize
    let lastSector := (wrap (wrap (position + numBytes) - 1)).tdiv SectorSize
    let numSectors := 1 + lastSector - firstSector
    inBounds (wrap (numSectors * SectorSize) = numSectors * SectorSize ∧ 0 ≤ numSectors)
    let firstAligned := position = firstSector * SectorSize
    let lastAligned := wrap (position + numBytes) = (lastSector + 1) * SectorSize
    let buf ← f.readIf d buf 0 (firstSector * SectorSize) buf₁ (¬ firstAligned)
    let buf ← f.readIf d buf ((lastSector - firstSector) * SectorSize).toNat
      (lastSector * SectorSize) buf₂ (¬ lastAligned ∧ (firstSector ≠ lastSector ∨ firstAligned))
    let offset := position - firstSector * SectorSize
    inBounds (0 ≤ offset ∧ 0 ≤ numBytes ∧ offset + numBytes ≤ numSectors * SectorSize)
    let buf := bcopy src 0 buf offset.toNat numBytes.toNat
    let d ← writeSectors d f.hdr firstSector 0 buf numSectors.toNat
    return (numBytes,d)

def Seek (f : OpenFile) (position : ℤ) : OpenFile := { f with seekPosition := position }

def Read (f : OpenFile) (d : Disk) (into : Buffer) (k : ℕ) (numBytes : ℤ) (buf : Buffer) :
    Except Fault (ℤ × Buffer × OpenFile) := do
  let (result,into) ← f.ReadAt d into k numBytes f.seekPosition buf
  return (result,into,{ f with seekPosition := wrap (f.seekPosition + result) })

def Write (f : OpenFile) (d : Disk) (src : Buffer) (numBytes : ℤ) (buf buf₁ buf₂ : Buffer) :
    Except Fault (ℤ × Disk × OpenFile) := do
  let (result,d) ← f.WriteAt d src numBytes f.seekPosition buf buf₁ buf₂
  return (result,d,{ f with seekPosition := wrap (f.seekPosition + result) })

/-! What the transfers do. -/

variable {d : Disk} {hdr : Buffer}

theorem readSectors_ok (h : Ok hdr) (d : Disk) {i n : ℕ} (hn : ((i + n : ℕ) : ℤ) ≤ numSectors hdr)
    (k : ℕ) (buf : Buffer) : readSectors d hdr i k buf n =
      .ok (bcopy (byteAt d hdr) (SectorSize * i) buf k (SectorSize * n)) := by
  induction n generalizing i k buf with
  | zero => simp [readSectors,pure,Except.pure]
  | succ n ih =>
    have hi : (i : ℤ) < numSectors hdr := by omega
    have hs := h.sector_lt hi
    have hread : d.ReadSector (sector hdr i) = .ok (d (sector hdr i)) := by
      simp [Disk.ReadSector,hs.1,bind,Except.bind,pure,Except.pure]
    have hblock : bcopy (d (sector hdr i)) 0 buf k SectorSize =
        bcopy (byteAt d hdr) (SectorSize * i) buf k SectorSize := by
      funext j
      by_cases hj : k ≤ j ∧ j < k + SectorSize
      · simp only [SectorSize] at hj
        rw [bcopy_in _ _ _ hj,bcopy_in _ _ _ hj,byteAt]
        simp only [SectorSize]
        rw [show (128 * i + (j - k)) / 128 = i by omega,
          show (128 * i + (j - k)) % 128 = 0 + (j - k) by omega]
      · rw [bcopy_out _ _ _ (by omega),bcopy_out _ _ _ (by omega)]
    have hrest := ih (i := i + 1) (by omega) (k + SectorSize)
      (bcopy (byteAt d hdr) (SectorSize * i) buf k SectorSize)
    simp only [readSectors,ByteToSector_ok h hi,hread,hblock,bind,Except.bind]
    rw [show ((i : ℤ) + 1) = ((i + 1 : ℕ) : ℤ) by omega,hrest,
      show SectorSize * (i + 1) = SectorSize * i + SectorSize by ring,bcopy_bcopy,
      show SectorSize + SectorSize * n = SectorSize * (n + 1) by ring]

/-- The sectors written hold the buffer; every other sector of the disk is unchanged. -/
theorem writeSectors_ok (h : Ok hdr) (d : Disk) {i n : ℕ}
    (hn : ((i + n : ℕ) : ℤ) ≤ numSectors hdr) (k : ℕ) (buf : Buffer) :
    ∃ d', writeSectors d hdr i k buf n = .ok d' ∧
      (∀ s, (∀ j, i ≤ j → j < i + n → s ≠ sector hdr j) → d' s = d s) ∧
      ∀ j x, j < n → x < SectorSize →
        d' (sector hdr (i + j)) x = buf (k + SectorSize * j + x) := by
  induction n generalizing d i k with
  | zero => exact ⟨d,rfl,fun _ _ => rfl,fun j x hj => absurd hj (by omega)⟩
  | succ n ih =>
    have hi : (i : ℤ) < numSectors hdr := by omega
    have hs := h.sector_lt hi
    let d₁ := Function.update d (sector hdr i) (bcopy buf k (d (sector hdr i)) 0 SectorSize)
    have hwrite : d.WriteSector (sector hdr i) buf k = .ok d₁ := by
      simp [Disk.WriteSector,hs.1,bind,Except.bind,pure,Except.pure,d₁]
    obtain ⟨d',hd',hframe,hdata⟩ := ih d₁ (i := i + 1) (by omega) (k + SectorSize)
    refine ⟨d',?_,?_,?_⟩
    · simp only [writeSectors,ByteToSector_ok h hi,hwrite,bind,Except.bind]
      rw [show ((i : ℤ) + 1) = ((i + 1 : ℕ) : ℤ) by omega]
      exact hd'
    · intro s hne
      rw [hframe s fun j hj hjn => hne j (by omega) (by omega)]
      exact Function.update_of_ne (hne i le_rfl (by omega)) _ _
    · intro j x hj hx
      cases j with
      | zero =>
        -- later writes go to other sectors of the file
        have hkeep : ∀ j, i + 1 ≤ j → j < i + 1 + n → sector hdr i ≠ sector hdr j := by
          intro j hj₁ hj₂ he
          have := h.sector_inj hi (by omega) he
          omega
        have hcopy := bcopy_in buf k (d (sector hdr i)) (k := 0) (n := SectorSize) (j := x)
          ⟨by omega,by omega⟩
        have hself : d₁ (sector hdr i) = bcopy buf k (d (sector hdr i)) 0 SectorSize :=
          Function.update_self _ _ _
        rw [Nat.add_zero,hframe _ hkeep,hself,hcopy,Nat.mul_zero,Nat.add_zero,Nat.sub_zero]
      | succ j =>
        have hj' := hdata j x (by omega) hx
        rw [show i + (j + 1) = i + 1 + j by omega,hj',
          show k + SectorSize + SectorSize * j + x = k + SectorSize * (j + 1) + x by ring]

/-- The number of bytes of a request that lie in the file. -/
def transferred (fileLength numBytes position : ℤ) : ℤ :=
  if 0 ≤ position then max 0 (min numBytes (fileLength - position)) else 0

theorem transferred_natCast (fileLength numBytes : ℤ) (p : ℕ) :
    transferred fileLength numBytes p = max 0 (min numBytes (fileLength - p)) :=
  if_pos (Int.natCast_nonneg p)

theorem transferred_refused {fileLength numBytes position : ℤ}
    (h : numBytes ≤ 0 ∨ position ≥ fileLength) : transferred fileLength numBytes position = 0 := by
  unfold transferred
  split <;> omega

theorem transferred_le (fileLength : ℤ) (n p : ℕ) :
    (transferred fileLength n p).toNat ≤ n := by
  rw [transferred_natCast]
  omega

theorem lt_transferred {fileLength : ℤ} {n p j : ℕ} (hj : j < n)
    (hx : ((p + j : ℕ) : ℤ) < fileLength) : j < (transferred fileLength n p).toNat := by
  rw [transferred_natCast]
  omega

/-- The arithmetic of a request that is not refused, with nothing wrapping around: `c`
bytes at `p`, in `n` sectors from `p / SectorSize` on. -/
structure Request (fileLength numBytes : ℤ) (p c n : ℕ) : Prop where
  positive : 0 < c
  inside : ((p + c : ℕ) : ℤ) ≤ fileLength
  count : transferred fileLength numBytes p = c
  clipped : (if wrap (p + numBytes) > fileLength then wrap (fileLength - p) else numBytes) = c
  stop : wrap (p + c : ℤ) = ((p + c : ℕ) : ℤ)
  first : (p : ℤ).tdiv SectorSize = ((p / SectorSize : ℕ) : ℤ)
  last : (wrap (((p + c : ℕ) : ℤ) - 1)).tdiv SectorSize = (((p + c - 1) / SectorSize : ℕ) : ℤ)
  span : n = (p + c - 1) / SectorSize - p / SectorSize + 1
  sectors : 1 + (((p + c - 1) / SectorSize : ℕ) : ℤ) - ((p / SectorSize : ℕ) : ℤ) = n
  size : wrap ((n : ℤ) * SectorSize) = (n : ℤ) * SectorSize ∧ (0 : ℤ) ≤ n
  fits : (0 : ℤ) ≤ p - ((p / SectorSize : ℕ) : ℤ) * SectorSize ∧ (0 : ℤ) ≤ c ∧
    (p : ℤ) - ((p / SectorSize : ℕ) : ℤ) * SectorSize + c ≤ n * SectorSize

theorem request {fileLength numBytes : ℤ} {p : ℕ} (hlen : fileLength ≤ MaxFileSize)
    (hsum : p + numBytes < 2 ^ 31) (hreq : ¬ (numBytes ≤ 0 ∨ (p : ℤ) ≥ fileLength)) :
    ∃ c n, Request fileLength numBytes p c n := by
  have hr : 0 < numBytes ∧ (p : ℤ) < fileLength := by omega
  simp only [MaxFileSize,NumDirect,SectorSize] at hlen
  have hcount := transferred_natCast fileLength numBytes p
  obtain ⟨c,hc⟩ : ∃ c : ℕ, (c : ℤ) = min numBytes (fileLength - p) :=
    ⟨(min numBytes (fileLength - p)).toNat,by omega⟩
  refine ⟨c,(p + c - 1) / SectorSize - p / SectorSize + 1,by omega,by omega,by omega,
    ?_,?_,?_,?_,rfl,?_,?_,?_⟩
  · rw [wrap_of_range (by omega) hsum,wrap_of_range (by omega) (by omega)]
    split <;> omega
  · rw [wrap_of_range (by omega) (by omega)]
    omega
  · rw [Int.tdiv_eq_ediv_of_nonneg (by omega)]
    simp only [SectorSize]
    omega
  · rw [wrap_of_range (by omega) (by omega),Int.tdiv_eq_ediv_of_nonneg (by omega)]
    simp only [SectorSize]
    omega
  · simp only [SectorSize]
    omega
  · refine ⟨wrap_of_range ?_ ?_,by omega⟩
    all_goals
      simp only [SectorSize]
      omega
  · simp only [SectorSize]
    omega

theorem Request.sectors_le {hdr : Buffer} {numBytes : ℤ} {p c n : ℕ} (h : Ok hdr)
    (hr : Request (FileLength hdr) numBytes p c n) :
    ((p / SectorSize + n : ℕ) : ℤ) ≤ numSectors hdr := by
  have hin := hr.inside
  have hpos := hr.positive
  have hlast := h.covers (x := p + c - 1) (by unfold FileLength at hin; omega)
  rw [hr.span]
  simp only [SectorSize] at hlast ⊢
  omega

theorem ReadAt_ok {f : OpenFile} (h : Ok f.hdr) (d : Disk) (into : Buffer) (k : ℕ)
    {n : ℤ} {p : ℕ} (buf : Buffer) (hsum : p + n < 2 ^ 31) :
    f.ReadAt d into k n p buf = .ok (transferred (FileLength f.hdr) n p,
      bcopy (byteAt d f.hdr) p into k (transferred (FileLength f.hdr) n p).toNat) := by
  by_cases hreq : n ≤ 0 ∨ (p : ℤ) ≥ FileLength f.hdr
  · simp only [ReadAt,transferred_refused hreq,if_pos hreq,Int.toNat_zero,bcopy_zero]
    rfl
  · have hlen : FileLength f.hdr ≤ MaxFileSize := h.length_le
    obtain ⟨c,m,hr⟩ := request hlen hsum hreq
    have hread := readSectors_ok h d (hr.sectors_le h) 0 buf
    have hfits := hr.fits
    have hspan := hr.span
    simp only [ReadAt,if_neg hreq,hr.clipped,hr.stop,hr.first,hr.last,hr.sectors,
      inBounds_of hr.size,Int.toNat_natCast,hread,hr.count,inBounds_of hr.fits,
      bind,Except.bind,pure,Except.pure]
    congr 2
    funext j
    by_cases hj : k ≤ j ∧ j < k + c
    · rw [bcopy_in _ _ _ hj,bcopy_in _ _ _ hj,bcopy_in]
      · congr 1
        simp only [SectorSize]
        omega
      · simp only [SectorSize] at hfits ⊢
        omega
    · rw [bcopy_out _ _ _ (by omega),bcopy_out _ _ _ (by omega)]

/-- `d'` is `d` after `c` bytes of `src` were written at `p` to the file of `hdr`. -/
structure Written (d d' : Disk) (hdr src : Buffer) (p c : ℕ) : Prop where
  frame : ∀ s, (∀ i : ℕ, (i : ℤ) < numSectors hdr → s ≠ sector hdr i) → d' s = d s
  content : ∀ x : ℕ, (x : ℤ) < numBytes hdr →
    byteAt d' hdr x = if p ≤ x ∧ x < p + c then src (x - p) else byteAt d hdr x

theorem Written.frame_data {d d' : Disk} {hdr src : Buffer} {p c s : ℕ}
    (h : Written d d' hdr src p c) (hs : s ∉ data hdr) : d' s = d s := by
  refine h.frame s fun i hi he => hs ?_
  exact mem_data.mpr ⟨i,hi,he.symm⟩

theorem transferred_of_le {fileLength n : ℤ} (h₀ : 0 ≤ n) (h : n ≤ fileLength) :
    transferred fileLength n (0 : ℕ) = n := by
  rw [transferred_natCast]
  omega

theorem transferred_all {fileLength : ℤ} (h : 0 ≤ fileLength) :
    transferred fileLength fileLength (0 : ℕ) = fileLength :=
  transferred_of_le h le_rfl

/-- A sector that is read in holds the bytes of the file. -/
theorem readIf_ok {f : OpenFile} (h : Ok f.hdr) (d : Disk) (buf : Buffer) (k : ℕ) {i : ℕ}
    (hi : (i : ℤ) < numSectors f.hdr) (junk : Buffer) (b : Prop) [Decidable b] :
    ∃ buf', f.readIf d buf k ((i : ℤ) * SectorSize) junk b = .ok buf' ∧
      (∀ j, j < k ∨ k + SectorSize ≤ j ∨ ¬ b → buf' j = buf j) ∧
      (b → ∀ j, j < SectorSize → ((i * SectorSize + j : ℕ) : ℤ) < numBytes f.hdr →
        buf' (k + j) = byteAt d f.hdr (i * SectorSize + j)) := by
  unfold readIf
  by_cases hb : b
  · have hd := h.direct
    have hcast : (i : ℤ) * SectorSize = ((i * SectorSize : ℕ) : ℤ) := by push_cast; ring
    have hread := ReadAt_ok h d buf k (n := SectorSize) (p := i * SectorSize) junk (by
      simp only [SectorSize,NumDirect] at hd ⊢
      omega)
    have hcount := transferred_le (FileLength f.hdr) SectorSize (i * SectorSize)
    rw [if_pos hb,hcast,hread]
    refine ⟨_,rfl,?_,?_⟩
    · intro j hj
      simp only [hb,not_true_eq_false,or_false] at hj
      exact bcopy_out _ _ _ (by omega)
    · intro _ j hj hx
      have hlong := lt_transferred hj hx
      have hcopy := bcopy_in (byteAt d f.hdr) (i * SectorSize) buf (k := k) (j := k + j)
        ⟨Nat.le_add_right k j,Nat.add_lt_add_left hlong k⟩
      rw [show k + j - k = j by omega] at hcopy
      exact hcopy
  · rw [if_neg hb]
    exact ⟨_,rfl,fun _ _ => rfl,fun h => absurd h hb⟩

/-- The bytes of the first and last sector that a write does not cover are in its buffer:
the sector was read in, by the first call of `ReadAt` or by the second. -/
theorem uncovered {p c x : ℕ} {fileLength : ℤ} {old b₁ b₂ : Buffer} (hc : 0 < c)
    (hfill₁ : ¬ (p : ℤ) = ((p / 128 : ℕ) : ℤ) * 128 → ∀ j, j < 128 →
      ((p / 128 * 128 + j : ℕ) : ℤ) < fileLength → b₁ (0 + j) = old (p / 128 * 128 + j))
    (hkeep₂ : ∀ j, j < ((((p + c - 1) / 128 : ℕ) - ((p / 128 : ℕ) : ℤ)) * 128).toNat ∨
      ((((p + c - 1) / 128 : ℕ) - ((p / 128 : ℕ) : ℤ)) * 128).toNat + 128 ≤ j ∨
      ¬ (¬ ((p + c : ℕ) : ℤ) = ((((p + c - 1) / 128 : ℕ) : ℤ) + 1) * 128 ∧
        (((p / 128 : ℕ) : ℤ) ≠ (((p + c - 1) / 128 : ℕ) : ℤ) ∨
          (p : ℤ) = ((p / 128 : ℕ) : ℤ) * 128)) → b₂ j = b₁ j)
    (hfill₂ : ¬ ((p + c : ℕ) : ℤ) = ((((p + c - 1) / 128 : ℕ) : ℤ) + 1) * 128 ∧
        (((p / 128 : ℕ) : ℤ) ≠ (((p + c - 1) / 128 : ℕ) : ℤ) ∨
          (p : ℤ) = ((p / 128 : ℕ) : ℤ) * 128) → ∀ j, j < 128 →
      (((p + c - 1) / 128 * 128 + j : ℕ) : ℤ) < fileLength →
      b₂ (((((p + c - 1) / 128 : ℕ) - ((p / 128 : ℕ) : ℤ)) * 128).toNat + j) =
        old ((p + c - 1) / 128 * 128 + j))
    (hx : (x : ℤ) < fileLength) (hlo : p / 128 ≤ x / 128) (hhi : x / 128 ≤ (p + c - 1) / 128)
    (hout : ¬ (p ≤ x ∧ x < p + c)) : b₂ (x - 128 * (p / 128)) = old x := by
  by_cases hlast : p + c ≤ x ∧ (p / 128 ≠ (p + c - 1) / 128 ∨ p = p / 128 * 128)
  · have hb := hfill₂ (by omega) (x % 128) (by omega) (by omega)
    rw [show ((((p + c - 1) / 128 : ℕ) - ((p / 128 : ℕ) : ℤ)) * 128).toNat + x % 128 =
      x - 128 * (p / 128) by omega,show (p + c - 1) / 128 * 128 + x % 128 = x by omega] at hb
    exact hb
  · have hb := hfill₁ (by omega) (x % 128) (by omega) (by omega)
    rw [show p / 128 * 128 + x % 128 = x by omega] at hb
    rw [hkeep₂ _ (by omega),← hb]
    congr 1
    omega

theorem WriteAt_ok {f : OpenFile} (h : Ok f.hdr) (d : Disk) (src : Buffer) {n : ℤ} {p : ℕ}
    (buf buf₁ buf₂ : Buffer) (hsum : p + n < 2 ^ 31) :
    ∃ r : ℤ × Disk, f.WriteAt d src n p buf buf₁ buf₂ = .ok r ∧
      r.1 = transferred (FileLength f.hdr) n p ∧
      Written d r.2 f.hdr src p (transferred (FileLength f.hdr) n p).toNat := by
  by_cases hreq : n ≤ 0 ∨ (p : ℤ) ≥ FileLength f.hdr
  · simp only [WriteAt,if_pos hreq,transferred_refused hreq]
    refine ⟨(0,d),rfl,rfl,fun _ _ => rfl,fun x _ => ?_⟩
    rw [if_neg (by simp)]
  · have hlen : FileLength f.hdr ≤ MaxFileSize := h.length_le
    obtain ⟨c,m,hr⟩ := request hlen hsum hreq
    have hsectors := hr.sectors_le h
    have hpos := hr.positive
    have hspan := hr.span
    have hfits := hr.fits
    simp only [SectorSize] at hsectors hspan hfits
    obtain ⟨b₁,hread₁,hkeep₁,hfill₁⟩ := readIf_ok h d buf 0 (i := p / SectorSize)
      (by simp only [SectorSize]; omega) buf₁ (¬ (p : ℤ) = ((p / SectorSize : ℕ) : ℤ) * SectorSize)
    obtain ⟨b₂,hread₂,hkeep₂,hfill₂⟩ := readIf_ok h d b₁
      ((((p + c - 1) / SectorSize : ℕ) - ((p / SectorSize : ℕ) : ℤ)) * SectorSize).toNat
      (i := (p + c - 1) / SectorSize) (by simp only [SectorSize]; omega) buf₂
      (¬ ((p + c : ℕ) : ℤ) = ((((p + c - 1) / SectorSize : ℕ) : ℤ) + 1) * SectorSize ∧
        (((p / SectorSize : ℕ) : ℤ) ≠ (((p + c - 1) / SectorSize : ℕ) : ℤ) ∨
          (p : ℤ) = ((p / SectorSize : ℕ) : ℤ) * SectorSize))
    obtain ⟨d',hwrite,hframe,hdata⟩ := writeSectors_ok h d (hr.sectors_le h) 0
      (bcopy src 0 b₂ ((p : ℤ) - ((p / SectorSize : ℕ) : ℤ) * SectorSize).toNat c)
    refine ⟨((c : ℤ),d'),?_,hr.count.symm,?_,?_⟩
    · simp only [WriteAt,if_neg hreq,hr.clipped,hr.stop,hr.first,hr.last,hr.sectors,
        inBounds_of hr.size,inBounds_of hr.fits,Int.toNat_natCast]
      refine bind_ok.mpr ⟨_,rfl,bind_ok.mpr ⟨_,hread₁,bind_ok.mpr ⟨_,hread₂,?_⟩⟩⟩
      exact bind_ok.mpr ⟨_,rfl,bind_ok.mpr ⟨_,hwrite,rfl⟩⟩
    · intro s hs
      exact hframe s fun j _ hj => hs j (by simp only [SectorSize] at hj; omega)
    · intro x hx
      rw [hr.count,Int.toNat_natCast]
      have hcov := h.covers hx
      simp only [SectorSize] at hkeep₁ hkeep₂ hfill₁ hfill₂ hframe hdata hcov
      by_cases hin : p / 128 ≤ x / 128 ∧ x / 128 < p / 128 + m
      · have hx' := hdata (x / 128 - p / 128) (x % 128) (by omega) (by omega)
        rw [show p / 128 + (x / 128 - p / 128) = x / 128 by omega,
          show 0 + 128 * (x / 128 - p / 128) + x % 128 = x - 128 * (p / 128) by omega] at hx'
        rw [byteAt]
        simp only [SectorSize]
        rw [hx']
        by_cases hmid : p ≤ x ∧ x < p + c
        · rw [if_pos hmid,bcopy_in _ _ _ (by omega)]
          congr 1
          omega
        · rw [if_neg hmid,bcopy_out _ _ _ (by omega)]
          exact uncovered hpos hfill₁ hkeep₂ hfill₂ hx (by omega) (by omega) hmid
      · have hsame : d' (sector f.hdr (x / 128)) = d (sector f.hdr (x / 128)) := by
          apply hframe
          intro j hj₁ hj₂ he
          have hj := h.sector_inj hcov (by omega) he
          omega
        rw [if_neg (by omega)]
        simp only [byteAt,SectorSize,hsame]

end OpenFile
end NachOS
