import NachOS.Bitmap

/-! `FileHeader` (filesys/filehdr.cc) over a disk of sectors.  A header in memory is the
128 bytes of its sector: `numBytes`, `numSectors` and `dataSectors[30]` are the words in
it. -/
namespace NachOS

open StateMachine Memory

abbrev SectorSize : ℕ := 128
abbrev NumSectors : ℕ := 1024

/-- The contents of the sectors; only offsets below `SectorSize` are used. -/
abbrev Disk := ℕ → Buffer

namespace Disk

def ReadSector (d : Disk) (sectorNumber : ℤ) : Except Fault Buffer := do
  check (0 ≤ sectorNumber ∧ sectorNumber < NumSectors)
  return d sectorNumber.toNat

/-- Write the `SectorSize` bytes of `data` from offset `k`. -/
def WriteSector (d : Disk) (sectorNumber : ℤ) (data : Buffer) (k : ℕ) : Except Fault Disk := do
  check (0 ≤ sectorNumber ∧ sectorNumber < NumSectors)
  let s := sectorNumber.toNat
  return Function.update d s (bcopy data k (d s) 0 SectorSize)

end Disk

namespace FileHeader

abbrev NumDirect : ℕ := 30
abbrev MaxFileSize : ℕ := NumDirect * SectorSize

def numBytes (hdr : Buffer) : ℤ := int hdr 0

def numSectors (hdr : Buffer) : ℤ := int hdr 4

def dataSectors (hdr : Buffer) (i : ℕ) : ℤ := int hdr (8 + 4 * i)

def FileLength (hdr : Buffer) : ℤ := numBytes hdr

/-- `dataSectors[offset / SectorSize]`: an index just below the array reads the words
before it in the object, any other index outside it leaves the object. -/
def ByteToSector (hdr : Buffer) (offset : ℤ) : Except Fault ℤ := do
  let i := offset.tdiv SectorSize
  inBounds (-2 ≤ i ∧ i < NumDirect)
  return int hdr (8 + 4 * i).toNat

def FetchFrom (d : Disk) (sector : ℤ) : Except Fault Buffer := d.ReadSector sector

def WriteBack (hdr : Buffer) (d : Disk) (sector : ℤ) : Except Fault Disk :=
  d.WriteSector sector hdr 0

/-- The loop of `Allocate` from index `i` on, with `n` sectors to go. -/
def allocate (hdr : Buffer) (freeMap : Bitmap) (i : ℕ) : ℕ → Except Fault (Buffer × Bitmap)
  | 0 => return (hdr,freeMap)
  | n + 1 => do
    let (sector,freeMap) ← freeMap.FindAndSet
    inBounds (i < NumDirect)
    let hdr := setInt hdr (8 + 4 * i) sector
    check (dataSectors hdr i ≥ 0)
    allocate hdr freeMap (i + 1) n

def Allocate (hdr : Buffer) (freeMap : Bitmap) (fileSize : ℤ) :
    Except Fault (Bool × Buffer × Bitmap) := do
  let hdr := setInt hdr 0 fileSize
  let hdr := setInt hdr 4 (divRoundUp fileSize SectorSize)
  let numClear ← freeMap.NumClear
  if numClear < numSectors hdr then
    return (false,hdr,freeMap)
  else
    let (hdr,freeMap) ← allocate hdr freeMap 0 (numSectors hdr).toNat
    return (true,hdr,freeMap)

/-- The loop of `Deallocate` over indices `0` to `n - 1`. -/
def deallocate (hdr : Buffer) (freeMap : Bitmap) : ℕ → Except Fault Bitmap
  | 0 => return freeMap
  | n + 1 => do
    let freeMap ← deallocate hdr freeMap n
    inBounds (n < NumDirect)
    let marked ← freeMap.Test (dataSectors hdr n)
    check (marked = true)
    freeMap.Clear (dataSectors hdr n)

def Deallocate (hdr : Buffer) (freeMap : Bitmap) : Except Fault Bitmap :=
  deallocate hdr freeMap (numSectors hdr).toNat

end FileHeader

/-! Headers that describe a file. -/
namespace FileHeader

structure Ok (hdr : Buffer) : Prop where
  nonneg : 0 ≤ numBytes hdr
  sectors : numSectors hdr = (numBytes hdr + (SectorSize - 1)) / SectorSize
  direct : numSectors hdr ≤ NumDirect
  range : ∀ i : ℕ, (i : ℤ) < numSectors hdr →
    0 ≤ dataSectors hdr i ∧ dataSectors hdr i < NumSectors
  distinct : ∀ i j : ℕ, (i : ℤ) < numSectors hdr → (j : ℤ) < numSectors hdr →
    dataSectors hdr i = dataSectors hdr j → i = j

/-- The number of the `i`-th data sector. -/
def sector (hdr : Buffer) (i : ℕ) : ℕ := (dataSectors hdr i).toNat

/-- Byte `x` of the file. -/
def byteAt (d : Disk) (hdr : Buffer) (x : ℕ) : Byte :=
  d (sector hdr (x / SectorSize)) (x % SectorSize)

variable {hdr : Buffer}

theorem Ok.covers (h : Ok hdr) {x : ℕ} (hx : (x : ℤ) < numBytes hdr) :
    ((x / SectorSize : ℕ) : ℤ) < numSectors hdr := by
  rw [h.sectors]
  simp only [SectorSize]
  omega

theorem Ok.length_le (h : Ok hdr) : numBytes hdr ≤ MaxFileSize := by
  have h₁ := h.direct
  rw [h.sectors] at h₁
  simp only [SectorSize,NumDirect,MaxFileSize] at h₁ ⊢
  omega

theorem Ok.numSectors_one (h : Ok hdr) (hlen : numBytes hdr = SectorSize) :
    numSectors hdr = 1 := by
  rw [h.sectors,hlen]
  decide

theorem Ok.sector_lt (h : Ok hdr) {i : ℕ} (hi : (i : ℤ) < numSectors hdr) :
    sector hdr i < NumSectors ∧ (sector hdr i : ℤ) = dataSectors hdr i := by
  have hr := h.range i hi
  unfold sector
  omega

theorem Ok.sector_inj (h : Ok hdr) {i j : ℕ} (hi : (i : ℤ) < numSectors hdr)
    (hj : (j : ℤ) < numSectors hdr) (he : sector hdr i = sector hdr j) : i = j := by
  have h₁ := (h.sector_lt hi).2
  have h₂ := (h.sector_lt hj).2
  exact h.distinct i j hi hj (by omega)

theorem ByteToSector_ok (h : Ok hdr) {i : ℕ} (hi : (i : ℤ) < numSectors hdr) :
    ByteToSector hdr ((i : ℤ) * SectorSize) = .ok (sector hdr i : ℤ) := by
  have hdiv : ((i : ℤ) * (SectorSize : ℕ)).tdiv (SectorSize : ℕ) = i :=
    Int.mul_tdiv_cancel _ (by decide)
  have hd := h.direct
  have hb : (-2 : ℤ) ≤ i ∧ (i : ℤ) < NumDirect := by
    constructor
    · omega
    · exact lt_of_lt_of_le hi hd
  simp only [ByteToSector,hdiv,inBounds_of hb,bind,Except.bind,pure,Except.pure]
  rw [(h.sector_lt hi).2,dataSectors,show (8 + 4 * (i : ℤ)).toNat = 8 + 4 * i by omega]

/-- The data sectors of a file. -/
def data (hdr : Buffer) : List ℕ := (List.range (numSectors hdr).toNat).map (sector hdr)

theorem mem_data {s : ℕ} :
    s ∈ data hdr ↔ ∃ i : ℕ, (i : ℤ) < numSectors hdr ∧ sector hdr i = s := by
  simp [data]

theorem Ok.data_nodup (h : Ok hdr) : (data hdr).Nodup := by
  refine List.Nodup.map_on ?_ List.nodup_range
  intro i hi j hj he
  rw [List.mem_range] at hi hj
  exact h.sector_inj (by omega) (by omega) he

theorem Ok.length_data (h : Ok hdr) :
    ((data hdr).length : ℤ) = (numBytes hdr + (SectorSize - 1)) / SectorSize := by
  have hn := h.nonneg
  have hs := h.sectors
  simp only [data,List.length_map,List.length_range,SectorSize] at *
  omega

theorem Ok.data_lt (h : Ok hdr) : ∀ s ∈ data hdr, s < NumSectors := by
  intro s hs
  obtain ⟨i,hi,rfl⟩ := mem_data.mp hs
  exact (h.sector_lt hi).1

/-- A header is what its sector holds. -/
theorem Ok.congr (h : Ok hdr) (hdr' : Buffer) (he : ∀ k, k < SectorSize → hdr' k = hdr k) :
    Ok hdr' ∧ data hdr' = data hdr ∧ numBytes hdr' = numBytes hdr := by
  simp only [SectorSize] at he
  have hbytes : numBytes hdr' = numBytes hdr := int_congr fun k _ _ => he k (by omega)
  have hsectors : numSectors hdr' = numSectors hdr := int_congr fun k _ _ => he k (by omega)
  have hdirect := h.direct
  simp only [NumDirect] at hdirect
  have hslot : ∀ i : ℕ, (i : ℤ) < numSectors hdr → dataSectors hdr' i = dataSectors hdr i :=
    fun i hi => int_congr fun k _ _ => he k (by omega)
  refine ⟨⟨?_,?_,?_,fun i hi => ?_,fun i j hi hj hij => ?_⟩,?_,hbytes⟩
  · rw [hbytes]
    exact h.nonneg
  · rw [hsectors,hbytes]
    exact h.sectors
  · rw [hsectors]
    exact h.direct
  · rw [hsectors] at hi
    rw [hslot i hi]
    exact h.range i hi
  · rw [hsectors] at hi hj
    rw [hslot i hi,hslot j hj] at hij
    exact h.distinct i j hi hj hij
  · rw [data,data,hsectors]
    refine List.map_congr_left fun i hi => ?_
    rw [List.mem_range] at hi
    rw [sector,sector,hslot i (by omega)]

/-- Bytes of a file depend on its data sectors only. -/
theorem Ok.byteAt_congr (h : Ok hdr) {d d' : Disk} (he : ∀ s ∈ data hdr, d' s = d s) {x : ℕ}
    (hx : (x : ℤ) < numBytes hdr) : byteAt d' hdr x = byteAt d hdr x := by
  rw [byteAt,byteAt,he _ (mem_data.mpr ⟨_,h.covers hx,rfl⟩)]

theorem FetchFrom_ok (d : Disk) {s : ℕ} (hs : s < NumSectors) : FetchFrom d s = .ok (d s) := by
  simp [FetchFrom,Disk.ReadSector,hs,bind,Except.bind,pure,Except.pure]

theorem WriteBack_ok (hdr : Buffer) (d : Disk) {s : ℕ} (hs : s < NumSectors) :
    ∃ b, WriteBack hdr d s = .ok (Function.update d s b) ∧
      ∀ k, k < SectorSize → b k = hdr k := by
  refine ⟨bcopy hdr 0 (d s) 0 SectorSize,?_,fun k hk => ?_⟩
  · simp [WriteBack,Disk.WriteSector,hs,bind,Except.bind,pure,Except.pure]
  · rw [bcopy_in _ _ _ (by omega)]
    simp

/-! Allocation and deallocation of the data sectors. -/

/-- Slots `i` to `i + n - 1` of `hdr'` got sectors that were clear in `m`; nothing below
them changed, and `m'` is `m` with those sectors marked. -/
structure Allocated (hdr hdr' : Buffer) (m m' : Bitmap) (i n : ℕ) : Prop where
  numBits : m'.numBits = m.numBits
  below : ∀ k, k < 8 + 4 * i → hdr' k = hdr k
  range : ∀ j, i ≤ j → j < i + n → 0 ≤ dataSectors hdr' j ∧ dataSectors hdr' j < m.numBits
  clear : ∀ j, i ≤ j → j < i + n → m.bit (sector hdr' j) = false
  distinct : ∀ j l, i ≤ j → j < l → l < i + n → sector hdr' j ≠ sector hdr' l
  marked : ∀ s, m'.bit s = true ↔ m.bit s = true ∨ ∃ j, i ≤ j ∧ j < i + n ∧ sector hdr' j = s
  least : ∀ j, i ≤ j → j < i + n → ∀ l, l < sector hdr' j → m'.bit l = true

theorem Allocated.zero (hdr : Buffer) (m : Bitmap) (i : ℕ) : Allocated hdr hdr m m i 0 where
  numBits := rfl
  below _ _ := rfl
  range j _ _ := by omega
  clear j _ _ := by omega
  distinct j l _ _ _ := by omega
  marked s := by
    refine ⟨Or.inl,?_⟩
    rintro (h | ⟨j,_,_,_⟩)
    · exact h
    · omega
  least j _ _ := by omega

/-- One slot more in front: its sector `s` was the first clear one. -/
theorem Allocated.cons {hdr hdr' : Buffer} {m m₁ m' : Bitmap} {i n s : ℕ} (hs : s < m.numBits)
    (hfree : m.bit s = false) (hleast : ∀ l, l < s → m.bit l = true)
    (hn₁ : m₁.numBits = m.numBits) (hbit : ∀ l, m₁.bit l = if l = s then true else m.bit l)
    (hslot : dataSectors hdr' i = s)
    (ha : Allocated (setInt hdr (8 + 4 * i) s) hdr' m₁ m' (i + 1) n) :
    Allocated hdr hdr' m m' i (n + 1) := by
  have hsector : sector hdr' i = s := by simp [sector,hslot]
  have hcases : ∀ j, i ≤ j → j < i + (n + 1) → j = i ∨ i + 1 ≤ j ∧ j < i + 1 + n := by
    intro j _ _
    omega
  have hlater : ∀ j, i + 1 ≤ j → j < i + 1 + n →
      sector hdr' j ≠ s ∧ m.bit (sector hdr' j) = false := by
    intro j hj hjn
    have hc := ha.clear j hj hjn
    rw [hbit] at hc
    by_cases he : sector hdr' j = s
    · simp [he] at hc
    · exact ⟨he,by simpa [he] using hc⟩
  refine ⟨ha.numBits.trans hn₁,?_,?_,?_,?_,?_,?_⟩
  · intro k hk
    rw [ha.below k (by omega)]
    exact setInt_out hdr _ (by omega)
  · intro j hj hjn
    rcases hcases j hj hjn with rfl | ⟨h₁,h₂⟩
    · exact ⟨hslot ▸ Int.natCast_nonneg s,hslot ▸ Int.ofNat_lt.mpr hs⟩
    · exact hn₁ ▸ ha.range j h₁ h₂
  · intro j hj hjn
    rcases hcases j hj hjn with rfl | ⟨h₁,h₂⟩
    · rw [hsector]
      exact hfree
    · exact (hlater j h₁ h₂).2
  · intro j l hj hjl hln
    rcases hcases j hj (by omega) with rfl | ⟨h₁,h₂⟩
    · rw [hsector]
      exact (hlater l (by omega) (by omega)).1.symm
    · exact ha.distinct j l h₁ hjl (by omega)
  · intro l
    rw [ha.marked,hbit]
    constructor
    · rintro (h | ⟨j,h₁,h₂,he⟩)
      · by_cases hl : l = s
        · exact Or.inr ⟨i,le_rfl,by omega,hsector.trans hl.symm⟩
        · exact Or.inl (by simpa [hl] using h)
      · exact Or.inr ⟨j,by omega,by omega,he⟩
    · rintro (h | ⟨j,hj,hjn,he⟩)
      · exact Or.inl (by simp [h])
      · rcases hcases j hj hjn with rfl | ⟨h₁,h₂⟩
        · exact Or.inl (by simp [← he,hsector])
        · exact Or.inr ⟨j,h₁,h₂,he⟩
  · intro j hj hjn l hl
    rcases hcases j hj hjn with rfl | ⟨h₁,h₂⟩
    · rw [hsector] at hl
      have hbefore := hleast l hl
      exact (ha.marked l).mpr (Or.inl (by simp [hbit,hbefore]))
    · exact ha.least j h₁ h₂ l hl

/-- One round of the loop, with a clear sector for it. -/
theorem allocate_succ {m : Bitmap} (hm : m.numBits = NumSectors) (i : ℕ) {n : ℕ}
    (hn : n + 1 ≤ (m.clear m.numBits).card) (hdr : Buffer) :
    ∃ (s : ℕ) (m₁ : Bitmap), s < m.numBits ∧ m.bit s = false ∧ (∀ l, l < s → m.bit l = true) ∧
      m₁.numBits = m.numBits ∧ (∀ l, m₁.bit l = if l = s then true else m.bit l) ∧
      n ≤ (m₁.clear m₁.numBits).card ∧ dataSectors (setInt hdr (8 + 4 * i) s) i = s ∧
      allocate hdr m i (n + 1) = (inBounds (i < NumDirect) >>= fun _ =>
        allocate (setInt hdr (8 + 4 * i) s) m₁ (i + 1) n) := by
  rcases m.FindAndSet_ok with ⟨s,m₁,hs,hfree,hleast,hset,hn₁,hbit⟩ | ⟨hall,_⟩
  · have hcard : n ≤ (m₁.clear m₁.numBits).card := by
      have hmem : s ∈ m.clear m.numBits := Bitmap.mem_clear.mpr ⟨hs,hfree⟩
      rw [hn₁,Bitmap.clear_of_mark hbit,Finset.card_erase_of_mem hmem]
      omega
    have hrange : (s : ℤ) < 2 ^ 31 := by simp only [NumSectors] at hm; omega
    have hslot : dataSectors (setInt hdr (8 + 4 * i) s) i = s :=
      int_setInt hdr (8 + 4 * i) (by omega) hrange
    have hc : dataSectors (setInt hdr (8 + 4 * i) s) i ≥ 0 := by omega
    refine ⟨s,m₁,hs,hfree,hleast,hn₁,hbit,hcard,hslot,?_⟩
    simp only [allocate,hset,check_of hc,bind,Except.bind]
  · have hempty : m.clear m.numBits = ∅ := by
      ext j
      simp only [Bitmap.mem_clear,Finset.notMem_empty,iff_false,not_and]
      intro hj
      simp [hall j hj]
    rw [hempty] at hn
    simp at hn

theorem allocate_ok {m : Bitmap} (hm : m.numBits = NumSectors) {i n : ℕ}
    (hi : i + n ≤ NumDirect) (hn : n ≤ (m.clear m.numBits).card) (hdr : Buffer) :
    ∃ r : Buffer × Bitmap, allocate hdr m i n = .ok r ∧ Allocated hdr r.1 m r.2 i n := by
  induction n generalizing hdr m i with
  | zero => exact ⟨(hdr,m),rfl,.zero hdr m i⟩
  | succ n ih =>
    obtain ⟨s,m₁,hs,hfree,hleast,hn₁,hbit,hcard,hslot₁,hstep⟩ := allocate_succ hm i hn hdr
    obtain ⟨⟨hdr',m'⟩,hrun,ha⟩ := ih (hn₁.trans hm) (i := i + 1) (by omega) hcard
      (setInt hdr (8 + 4 * i) s)
    have hslot : dataSectors hdr' i = s := by
      rw [← hslot₁]
      exact int_congr fun k _ hk => ha.below k (by omega)
    refine ⟨(hdr',m'),?_,.cons hs hfree hleast hn₁ hbit hslot ha⟩
    rw [hstep]
    exact inBounds_bind_ok.mpr ⟨by omega,hrun⟩

/-- The loop leaves the table when it has filled it. -/
theorem allocate_overflows {m : Bitmap} (hm : m.numBits = NumSectors) {i n : ℕ}
    (hi : i ≤ NumDirect) (hin : NumDirect < i + n) (hn : n ≤ (m.clear m.numBits).card)
    (hdr : Buffer) : allocate hdr m i n = .error .undefined := by
  induction n generalizing hdr m i with
  | zero => omega
  | succ n ih =>
    obtain ⟨s,m₁,_,_,_,hn₁,_,hcard,_,hstep⟩ := allocate_succ hm i hn hdr
    rw [hstep]
    by_cases hfull : i = NumDirect
    · subst hfull
      rfl
    · have hlt : i < NumDirect := by omega
      rw [inBounds_of hlt]
      exact ih (hn₁.trans hm) (by omega) (by omega) hcard _

theorem divRoundUp_ok {n : ℤ} (h : 0 ≤ n) :
    divRoundUp n SectorSize = (n + (SectorSize - 1)) / SectorSize := by
  unfold divRoundUp
  rw [Int.tdiv_eq_ediv_of_nonneg h,Int.tmod_eq_emod_of_nonneg h]
  simp only [SectorSize]
  split <;> omega

/-- Sizes below zero need no sector. -/
theorem divRoundUp_neg {n : ℤ} (h : n < 0) :
    n ≤ divRoundUp n SectorSize ∧ divRoundUp n SectorSize ≤ 0 := by
  obtain ⟨k,rfl⟩ : ∃ k, n = -k := ⟨-n,by omega⟩
  unfold divRoundUp
  rw [Int.neg_tdiv,Int.neg_tmod,Int.tdiv_eq_ediv_of_nonneg (by omega),
    Int.tmod_eq_emod_of_nonneg (by omega)]
  simp only [SectorSize]
  split <;> omega

theorem divRoundUp_range {n : ℤ} (h₁ : -2 ^ 31 ≤ n) (h₂ : n < 2 ^ 31) :
    -2 ^ 31 ≤ divRoundUp n SectorSize ∧ divRoundUp n SectorSize < 2 ^ 31 := by
  by_cases h : 0 ≤ n
  · rw [divRoundUp_ok h]
    simp only [SectorSize]
    omega
  · have hneg := divRoundUp_neg (n := n) (by omega)
    omega

/-- The header with which `Allocate` starts its loop. -/
def sized (hdr : Buffer) (size : ℤ) : Buffer :=
  setInt (setInt hdr 0 size) 4 (divRoundUp size SectorSize)

theorem numBytes_sized (hdr : Buffer) {size : ℤ} (h₁ : -2 ^ 31 ≤ size) (h₂ : size < 2 ^ 31) :
    numBytes (sized hdr size) = size := by
  rw [sized,numBytes,int_setInt_of_disjoint _ _ (by omega),int_setInt _ _ h₁ h₂]

theorem numSectors_sized (hdr : Buffer) {size : ℤ} (h₁ : -2 ^ 31 ≤ size) (h₂ : size < 2 ^ 31) :
    numSectors (sized hdr size) = divRoundUp size SectorSize :=
  int_setInt _ _ (divRoundUp_range h₁ h₂).1 (divRoundUp_range h₁ h₂).2

/-- `Allocate` compares the number of sectors with the clear ones, for every `int` size. -/
theorem Allocate_eq (hdr : Buffer) (m : Bitmap) {size : ℤ} (h₁ : -2 ^ 31 ≤ size)
    (h₂ : size < 2 ^ 31) : Allocate hdr m size =
      if ((m.clear m.numBits).card : ℤ) < divRoundUp size SectorSize
      then .ok (false,sized hdr size,m)
      else allocate (sized hdr size) m 0 (divRoundUp size SectorSize).toNat >>= fun r =>
        .ok (true,r) := by
  have hsectors := numSectors_sized hdr h₁ h₂
  simp only [sized] at hsectors ⊢
  simp only [Allocate,m.NumClear_ok,hsectors,bind,Except.bind,pure,Except.pure]

/-- `hdr` describes a file whose sectors were clear in `m` and are what `m'` adds to it.
No clear sector is left below them. -/
structure Grown (m m' : Bitmap) (hdr : Buffer) : Prop where
  ok : Ok hdr
  numBits : m'.numBits = m.numBits
  clear : ∀ s ∈ data hdr, m.bit s = false
  marked : ∀ s, m'.bit s = true ↔ m.bit s = true ∨ s ∈ data hdr
  least : ∀ s ∈ data hdr, ∀ l, l < s → m'.bit l = true

/-- `Allocate` takes sectors for the whole file, or nothing if too few are clear. -/
theorem Allocate_ok (hdr : Buffer) {m : Bitmap} (hm : m.numBits = NumSectors) (size : ℤ)
    (h₀ : 0 ≤ size) (h₁ : size ≤ MaxFileSize) :
    (((m.clear m.numBits).card : ℤ) < (size + (SectorSize - 1)) / SectorSize ∧
      ∃ hdr', Allocate hdr m size = .ok (false,hdr',m)) ∨
    ∃ hdr' m', Allocate hdr m size = .ok (true,hdr',m') ∧ numBytes hdr' = size ∧
      Grown m m' hdr' := by
  have hround := divRoundUp_ok h₀
  simp only [MaxFileSize,NumDirect,SectorSize] at h₁ hround
  have hlow : -2 ^ 31 ≤ size := by omega
  have hhigh : size < 2 ^ 31 := by omega
  have hbytes₁ := numBytes_sized hdr hlow hhigh
  have hsectors₁ := numSectors_sized hdr hlow hhigh
  rw [Allocate_eq hdr m (by omega) (by omega)]
  by_cases hfull : ((m.clear m.numBits).card : ℤ) < divRoundUp size SectorSize
  · rw [if_pos hfull]
    rw [divRoundUp_ok h₀] at hfull
    exact Or.inl ⟨hfull,_,rfl⟩
  · rw [if_neg hfull,← hsectors₁]
    rw [← hsectors₁] at hfull
    have hcount : (numSectors (sized hdr size)).toNat ≤ 30 := by
      rw [hsectors₁]
      simp only [SectorSize]
      omega
    obtain ⟨⟨hdr',m'⟩,hrun,ha⟩ := allocate_ok hm (i := 0)
      (n := (numSectors (sized hdr size)).toNat) (by simp only [NumDirect]; omega) (by omega)
      (sized hdr size)
    have hbytes : numBytes hdr' = size := by
      rw [← hbytes₁]
      exact int_congr fun k _ hk => ha.below k (by omega)
    have hsectors : numSectors hdr' = numSectors (sized hdr size) :=
      int_congr fun k _ hk => ha.below k (by omega)
    have hin : ∀ j : ℕ, (j : ℤ) < numSectors hdr' →
        j < 0 + (numSectors (sized hdr size)).toNat := by
      intro j hj
      omega
    have hok : Ok hdr' := by
      refine ⟨hbytes ▸ h₀,?_,?_,fun j hj => ?_,fun j l hj hl he => ?_⟩
      · rw [hsectors,hsectors₁,hbytes]
        simp only [SectorSize]
        omega
      · simp only [NumDirect]
        omega
      · have hr := ha.range j (by omega) (hin j hj)
        exact ⟨hr.1,hm ▸ hr.2⟩
      · have he' : sector hdr' j = sector hdr' l := by rw [sector,sector,he]
        rcases Nat.lt_trichotomy j l with hlt | heq | hlt
        · exact absurd he' (ha.distinct j l (by omega) hlt (hin l hl))
        · exact heq
        · exact absurd he'.symm (ha.distinct l j (by omega) hlt (hin j hj))
    refine Or.inr ⟨hdr',m',?_,hbytes,hok,ha.numBits,fun s hs => ?_,fun s => ?_,fun s hs => ?_⟩
    · exact bind_ok.mpr ⟨_,hrun,rfl⟩
    · obtain ⟨j,hj,rfl⟩ := mem_data.mp hs
      exact ha.clear j (by omega) (hin j hj)
    · rw [ha.marked,mem_data]
      refine or_congr Iff.rfl ⟨?_,?_⟩
      · rintro ⟨j,_,hj,he⟩
        exact ⟨j,by omega,he⟩
      · rintro ⟨j,hj,he⟩
        exact ⟨j,by omega,hin j hj,he⟩
    · obtain ⟨j,hj,rfl⟩ := mem_data.mp hs
      exact ha.least j (by omega) (hin j hj)

/-- The sectors are distinct, so the loop finds the next one marked. -/
theorem Test_next (h : Ok hdr) {m m₁ : Bitmap} (hm₁ : m₁.numBits = NumSectors)
    (hmarked : ∀ s ∈ data hdr, m.bit s = true) {n : ℕ} (hn : (n : ℤ) < numSectors hdr)
    (hbit : ∀ s, m₁.bit s = true ↔ m.bit s = true ∧ ∀ j, j < n → sector hdr j ≠ s) :
    m₁.Test (dataSectors hdr n) = .ok true := by
  have hs := h.sector_lt hn
  have hset : m₁.bit (sector hdr n) = true := by
    rw [hbit]
    refine ⟨hmarked _ (mem_data.mpr ⟨n,hn,rfl⟩),fun j hj he => ?_⟩
    have := h.sector_inj (by omega) hn he
    omega
  rw [← hs.2,Bitmap.Test_ok (by rw [hm₁]; exact hs.1),hset]

theorem deallocate_ok (h : Ok hdr) {m : Bitmap} (hm : m.numBits = NumSectors)
    (hmarked : ∀ s ∈ data hdr, m.bit s = true) {n : ℕ} (hn : (n : ℤ) ≤ numSectors hdr) :
    ∃ m', deallocate hdr m n = .ok m' ∧ m'.numBits = m.numBits ∧
      ∀ s, m'.bit s = true ↔ m.bit s = true ∧ ∀ j, j < n → sector hdr j ≠ s := by
  induction n with
  | zero => exact ⟨m,rfl,rfl,fun s => by simp⟩
  | succ n ih =>
    have hlt : (n : ℤ) < numSectors hdr := by omega
    obtain ⟨m₁,hrun,hn₁,hbit₁⟩ := ih (by omega)
    have hs := h.sector_lt hlt
    have hbound : sector hdr n < m₁.numBits := by rw [hn₁,hm]; exact hs.1
    have htest := Test_next h (hn₁.trans hm) hmarked hlt hbit₁
    obtain ⟨m₂,hclear,hn₂,hbit₂⟩ := Bitmap.Clear_ok hbound
    rw [hs.2] at hclear
    refine ⟨m₂,?_,hn₂.trans hn₁,fun s => ?_⟩
    · have hb : n < NumDirect := by
        have := h.direct
        omega
      simp only [deallocate,hrun,inBounds_of hb,htest,check_of,hclear,bind,Except.bind]
    · rw [hbit₂]
      by_cases he : s = sector hdr n
      · simp only [he,if_pos,Bool.false_eq_true,false_iff,not_and,not_forall]
        intro _
        exact ⟨n,by omega,fun hne => hne rfl⟩
      · rw [if_neg he,hbit₁]
        refine and_congr Iff.rfl ⟨fun hall j hj => ?_,fun hall j hj => hall j (by omega)⟩
        by_cases hj' : j = n
        · rw [hj']
          exact fun h => he h.symm
        · exact hall j (by omega)

/-- `Deallocate` clears the data sectors of the file. -/
theorem Deallocate_ok (h : Ok hdr) {m : Bitmap} (hm : m.numBits = NumSectors)
    (hmarked : ∀ s ∈ data hdr, m.bit s = true) :
    ∃ m', Deallocate hdr m = .ok m' ∧ m'.numBits = m.numBits ∧
      ∀ s, m'.bit s = true ↔ m.bit s = true ∧ s ∉ data hdr := by
  have hnonneg : 0 ≤ numSectors hdr := by
    have := h.nonneg
    rw [h.sectors]
    simp only [SectorSize]
    omega
  obtain ⟨m',hrun,hn,hbit⟩ := deallocate_ok h hm hmarked
    (n := (numSectors hdr).toNat) (by omega)
  refine ⟨m',hrun,hn,fun s => ?_⟩
  rw [hbit,mem_data]
  refine and_congr Iff.rfl ⟨?_,?_⟩
  · rintro hall ⟨j,hj,he⟩
    exact hall j (by omega) he
  · intro hnone j hj he
    exact hnone ⟨j,by omega,he⟩

end FileHeader
end NachOS
