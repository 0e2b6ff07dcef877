import NachOS.Coff

/-! `AddrSpace::Load` (userprog/addrspace.cc, with `RDATA`, on a little-endian host): the
segments of a NOFF file are copied to main memory.  What coff2noff made of a COFF file is
loaded as the image that the COFF file describes. -/
namespace NachOS
namespace AddrSpace

open StateMachine hiding Machine
open Memory Hardware NoffHeader Coff

/-- `divRoundUp` of unsigned numbers. -/
def divRoundUp (n s : ℕ) : ℕ := n / s + if n % s > 0 then 1 else 0

/-- Copy a segment of the file to main memory, if it is not empty. -/
def loadSegment (executable : Stub.OpenFile) (host : Host) (m : Machine) (s : Segment) :
    Except Fault (Host × Machine) :=
  if s.size > 0 then do
    let (_,bs,host) ← executable.ReadAt host s.size s.inFileAddr
    inBounds (0 ≤ s.virtualAddr ∧ s.virtualAddr + bs.length ≤ MemorySize)
    let mainMemory := bcopy (ofList bs) 0 m.mainMemory s.virtualAddr.toNat bs.length
    return (host,{ m with mainMemory := mainMemory })
  else return (host,m)

/-- `junk` is what `noffH` holds before the header is read. -/
def Load (s : AddrSpace) (fs : Stub.FileSystem) (fileName : Path) (m : Machine) (junk : Buffer) :
    Except Fault (Bool × AddrSpace × Stub.FileSystem × Machine) := do
  let (executable,fs) ← fs.openFile fileName
  match executable with
  | none => return (false,s,fs,m)
  | some executable => do
    let (_,bs,host) ← executable.ReadAt fs.host headerSize 0
    let noffH := fetch fun k => bs.getD k (junk k)
    check (noffH.noffMagic = NOFFMAGIC)
    let size := ((noffH.segment .code).size + (noffH.segment .readonlyData).size +
      (noffH.segment .initData).size + (noffH.segment .uninitData).size + UserStackSize) % 2 ^ 32
    let numPages := divRoundUp size.toNat PageSize
    check (numPages ≤ NumPhysPages)
    let (host,m) ← loadSegment executable host m (noffH.segment .code)
    let (host,m) ← loadSegment executable host m (noffH.segment .initData)
    let (host,m) ← loadSegment executable host m (noffH.segment .readonlyData)
    let host ← Stub.Close host executable.file
    return (true,{ s with numPages := numPages },{ fs with host := host },m)

/-! Reading the file. -/

/-- The descriptor is open on a regular file with these bytes. -/
structure Reads (host : Host) (fd : ℤ) (file : List Byte) (o : Description) : Prop where
  description : host.description fd = some o
  access : o.access = .readWrite
  regular : host.directory o.inode = false
  contents : host.contents o.inode = file

variable {host : Host} {f : Stub.OpenFile} {file : List Byte} {o : Description} {m : Machine}

theorem Reads.setOffset {fd : ℤ} (h : Reads host fd file o) (offset : ℕ) :
    Reads (host.setOffset fd o offset) fd file { o with offset := offset } :=
  ⟨Host.description_setOffset h.description offset,h.access,h.regular,h.contents⟩

theorem Reads.ReadAt (h : Reads host f.file file o) (position : ℤ) (h₀ : 0 ≤ position)
    (h₁ : position ≤ Host.limit) (n : ℕ) : ∃ host' o',
      f.ReadAt host n position = .ok ((((file.drop position.toNat).take n).length : ℕ),
        (file.drop position.toNat).take n,host') ∧ Reads host' f.file file o' := by
  have hacc : o.access ≠ .writeOnly := by
    rw [h.access]
    decide
  refine ⟨_,_,Stub.OpenFile.ReadAt_eq h.description hacc h.regular h₀ h₁ n ?_,h.setOffset _⟩
  rw [h.contents]

/-- The bytes of a segment are in the file and have room in memory. -/
structure InPlace (file : List Byte) (s : Segment) : Prop where
  address : 0 ≤ s.virtualAddr ∧ s.virtualAddr + s.size ≤ MemorySize
  position : 0 ≤ s.inFileAddr ∧ s.inFileAddr ≤ Host.limit
  length : s.inFileAddr + s.size ≤ file.length

def Loadable (file : List Byte) (s : Segment) : Prop := 0 < s.size → InPlace file s

/-- Memory after a segment was copied. -/
def placed (file : List Byte) (s : Segment) (memory : Buffer) : Buffer :=
  if s.size > 0 then
    bcopy (ofList (file.drop s.inFileAddr.toNat)) 0 memory s.virtualAddr.toNat s.size.toNat
  else memory

theorem loadSegment_ok (h : Reads host f.file file o) {s : Segment} (hs : Loadable file s) :
    ∃ host' o', loadSegment f host m s =
        .ok (host',{ m with mainMemory := placed file s m.mainMemory }) ∧
      Reads host' f.file file o' := by
  unfold loadSegment placed
  by_cases hsize : s.size > 0
  · obtain ⟨⟨haddr₀,haddr₁⟩,⟨hpos₀,hpos₁⟩,hend⟩ := hs hsize
    obtain ⟨host',o',hread,hreads⟩ := h.ReadAt s.inFileAddr hpos₀ hpos₁ s.size.toNat
    have hlen : ((file.drop s.inFileAddr.toNat).take s.size.toNat).length = s.size.toNat := by
      rw [List.length_take,List.length_drop]
      omega
    rw [hlen,Int.toNat_of_nonneg (by omega)] at hread
    rw [if_pos hsize]
    refine ⟨host',o',bind_ok.mpr ⟨_,hread,inBounds_bind_ok.mpr ⟨⟨haddr₀,by omega⟩,?_⟩⟩,hreads⟩
    have hcopy : bcopy (ofList ((file.drop s.inFileAddr.toNat).take s.size.toNat)) 0
        m.mainMemory s.virtualAddr.toNat s.size.toNat =
        bcopy (ofList (file.drop s.inFileAddr.toNat)) 0 m.mainMemory s.virtualAddr.toNat
          s.size.toNat := by
      funext a
      by_cases ha : s.virtualAddr.toNat ≤ a ∧ a < s.virtualAddr.toNat + s.size.toNat
      · rw [bcopy_in _ _ _ ha,bcopy_in _ _ _ ha]
        simp only [ofList,List.getD]
        rw [List.getElem?_take_of_lt (by omega)]
      · rw [bcopy_out _ _ _ (by omega),bcopy_out _ _ _ (by omega)]
    rw [hlen,hcopy,if_pos hsize]
    rfl
  · rw [if_neg hsize,if_neg hsize]
    exact ⟨host,o,rfl,h⟩

theorem Reads.close {fd : ℤ} (h : Reads host fd file o) : ∃ host', Stub.Close host fd = .ok host' := by
  unfold Stub.Close Host.close
  rw [h.description]
  exact ⟨_,rfl⟩

/-- The file that is opened is the one of that name. -/
theorem openFile_reads {fs : Stub.FileSystem} {fileName : Path} {i : ℕ}
    (hname : fs.host.names fileName = some i) (hregular : fs.host.directory i = false)
    (hgrants : (fs.host.openFd fileName .readWrite false false).1 ≠ -1) :
    ∃ f fs' o, fs.openFile fileName = .ok (some f,fs') ∧
      Reads fs'.host f.file (fs.host.contents i) o := by
  rcases fs.host.openFd_opened fileName .readWrite false false with hr | ⟨n,j,h',hr,ho⟩
  · exact absurd (congrArg Prod.fst hr) hgrants
  · rcases ho.file with ⟨hj,_,_,hdirectory,hcontents⟩ | ⟨hfalse,_⟩
    · cases hname.symm.trans hj
      have hn : ¬ (n : ℤ) = -1 := by omega
      have hopen : Stub.OpenForReadWrite fs.host fileName false = .ok ((n : ℤ),h') := by
        unfold Stub.OpenForReadWrite
        rw [hr]
        exact check_bind_ok.mpr ⟨Or.inl rfl,rfl⟩
      refine ⟨.new n,{ fs with host := h' },⟨i,.readWrite,0⟩,
        bind_ok.mpr ⟨_,hopen,if_neg hn⟩,⟨?_,rfl,?_,?_⟩⟩
      · simp [Stub.OpenFile.new,Host.description_natCast,ho.fds]
      · simp only [hdirectory]
        exact hregular
      · simp only [hcontents]
        rfl
    · cases hfalse

/-! The memory after loading. -/

/-- The segment occupies the address. -/
def Occupies (s : Segment) (a : ℕ) : Prop := s.virtualAddr ≤ a ∧ a < s.virtualAddr + s.size

theorem placed_in {s : Segment} (hs : Loadable file s) {a : ℕ} (ha : Occupies s a)
    (memory : Buffer) :
    placed file s memory a = ofList (file.drop s.inFileAddr.toNat) (a - s.virtualAddr.toNat) := by
  obtain ⟨h₁,h₂⟩ := ha
  have hsize : s.size > 0 := by omega
  have haddr := (hs hsize).address
  rw [placed,if_pos hsize,bcopy_in _ _ _ (by omega),Nat.zero_add]

theorem placed_out {s : Segment} (hs : Loadable file s) {a : ℕ} (ha : ¬ Occupies s a)
    (memory : Buffer) : placed file s memory a = memory a := by
  rw [placed]
  by_cases hsize : s.size > 0
  · have haddr := (hs hsize).address
    rw [if_pos hsize]
    refine bcopy_out _ _ _ ?_
    rw [Occupies,not_and_or] at ha
    omega
  · rw [if_neg hsize]

/-- Memory after the three segments with contents were copied. -/
def image (file : List Byte) (h : NoffHeader) (memory : Buffer) : Buffer :=
  placed file (h.segment .readonlyData) (placed file (h.segment .initData)
    (placed file (h.segment .code) memory))

section

variable {h : NoffHeader} (hl : ∀ n, n ≠ .uninitData → Loadable file (h.segment n)) {a : ℕ}
  (memory : Buffer)

include hl

theorem image_in {n : SegmentName} (hn : n ≠ .uninitData) (ha : Occupies (h.segment n) a)
    (hothers : ∀ k, k ≠ .uninitData → k ≠ n → ¬ Occupies (h.segment k) a) :
    image file h memory a = ofList (file.drop (h.segment n).inFileAddr.toNat)
      (a - (h.segment n).virtualAddr.toNat) := by
  have hcode := hl .code (by decide)
  have hinit := hl .initData (by decide)
  have hreadonly := hl .readonlyData (by decide)
  cases n with
  | code =>
    rw [image,placed_out hreadonly (hothers _ (by decide) (by decide)),
      placed_out hinit (hothers _ (by decide) (by decide)),placed_in hcode ha]
  | initData =>
    rw [image,placed_out hreadonly (hothers _ (by decide) (by decide)),placed_in hinit ha]
  | readonlyData => rw [image,placed_in hreadonly ha]
  | uninitData => exact absurd rfl hn

theorem image_out (ha : ∀ k, k ≠ .uninitData → ¬ Occupies (h.segment k) a) :
    image file h memory a = memory a := by
  rw [image,placed_out (hl _ (by decide)) (ha _ (by decide)),
    placed_out (hl _ (by decide)) (ha _ (by decide)),
    placed_out (hl _ (by decide)) (ha _ (by decide))]

end

/-- `numPages`, from the sizes in the header. -/
def pages (h : NoffHeader) : ℕ :=
  divRoundUp (((h.segment .code).size + (h.segment .readonlyData).size +
    (h.segment .initData).size + (h.segment .uninitData).size + UserStackSize) %
      2 ^ 32).toNat PageSize

/-- The header that `Load` reads. -/
def header (file : List Byte) (junk : Buffer) : NoffHeader :=
  fetch fun k => (file.take headerSize).getD k (junk k)

/-- `Load` of a file that exists: what is left to do once the header is read. -/
theorem Load_opened {fs : Stub.FileSystem} {fileName : Path} {i : ℕ}
    (hname : fs.host.names fileName = some i) (hregular : fs.host.directory i = false)
    (hgrants : (fs.host.openFd fileName .readWrite false false).1 ≠ -1)
    (hfile : fs.host.contents i = file) (s : AddrSpace) (m : Machine) (junk : Buffer) :
    ∃ f host o, ∃ fs' : Stub.FileSystem, Reads host f.file file o ∧ s.Load fs fileName m junk = do
      check ((header file junk).noffMagic = NOFFMAGIC)
      check (pages (header file junk) ≤ NumPhysPages)
      let (host,m) ← loadSegment f host m ((header file junk).segment .code)
      let (host,m) ← loadSegment f host m ((header file junk).segment .initData)
      let (host,m) ← loadSegment f host m ((header file junk).segment .readonlyData)
      let host ← Stub.Close host f.file
      return (true,{ s with numPages := pages (header file junk) },{ fs' with host := host },m) := by
  obtain ⟨f,fs',o,hopen,hreads⟩ := openFile_reads hname hregular hgrants
  rw [hfile] at hreads
  obtain ⟨host,o',hread,hreads'⟩ := hreads.ReadAt 0 le_rfl (by decide) headerSize
  refine ⟨f,host,o',fs',hreads',?_⟩
  unfold Load
  rw [hopen]
  simp only [bind,Except.bind] at hread ⊢
  rw [hread]
  rfl

theorem header_of_bytes {h : NoffHeader} (hrange : h.InRange) (bs : List Byte) (junk : Buffer) :
    header (h.bytes ++ bs) junk = h := by
  have hheader : (h.bytes ++ bs).take headerSize = h.bytes := by
    rw [← length_bytes h]
    exact List.take_left
  unfold header
  rw [hheader]
  refine fetch_of_bytes hrange fun k hk => ?_
  rw [← length_bytes h] at hk
  rw [List.getD_eq_getElem _ _ hk,List.getD_eq_getElem _ _ hk]

/-- `Load` of a file with a header whose segments can be loaded. -/
theorem Load_ok {fs : Stub.FileSystem} {fileName : Path} {i : ℕ} {h : NoffHeader} {bs : List Byte}
    (hname : fs.host.names fileName = some i) (hregular : fs.host.directory i = false)
    (hgrants : (fs.host.openFd fileName .readWrite false false).1 ≠ -1)
    (hfile : fs.host.contents i = h.bytes ++ bs) (hmagic : h.noffMagic = NOFFMAGIC)
    (hrange : h.InRange)
    (hl : ∀ n, n ≠ .uninitData → Loadable (h.bytes ++ bs) (h.segment n))
    (h₀ : 0 ≤ (segmentNames.map fun n => (h.segment n).size).sum)
    (h₁ : (segmentNames.map fun n => (h.segment n).size).sum + UserStackSize ≤
      (NumPhysPages * PageSize : ℕ)) (s : AddrSpace) (junk : Buffer) :
    ∃ s' fs', s.Load fs fileName m junk = .ok (true,s',fs',
      { m with mainMemory := image (h.bytes ++ bs) h m.mainMemory }) := by
  obtain ⟨f,host₁,o₁,fs₁,hreads₁,hload⟩ := Load_opened hname hregular hgrants hfile s m junk
  rw [header_of_bytes hrange] at hload
  obtain ⟨host₂,o₂,hcode,hreads₂⟩ := loadSegment_ok (m := m) hreads₁ (hl .code (by decide))
  obtain ⟨host₃,o₃,hinit,hreads₃⟩ := loadSegment_ok hreads₂ (hl .initData (by decide))
  obtain ⟨host₄,o₄,hreadonly,hreads₄⟩ := loadSegment_ok hreads₃ (hl .readonlyData (by decide))
  obtain ⟨host₅,hclose⟩ := hreads₄.close
  have hpages : pages h ≤ NumPhysPages := by
    simp only [segmentNames,List.map_cons,List.map_nil,List.sum_cons,List.sum_nil] at h₀ h₁
    simp only [pages,divRoundUp,UserStackSize,NumPhysPages,PageSize] at h₁ ⊢
    split <;> omega
  refine ⟨{ s with numPages := pages h },{ fs₁ with host := host₅ },?_⟩
  rw [hload]
  refine check_bind_ok.mpr ⟨hmagic,check_bind_ok.mpr ⟨hpages,?_⟩⟩
  refine bind_ok.mpr ⟨_,hcode,bind_ok.mpr ⟨_,hinit,bind_ok.mpr ⟨_,hreadonly,?_⟩⟩⟩
  exact bind_ok.mpr ⟨_,hclose,rfl⟩

/-! The segments of a NOFF file that coff2noff made. -/

section

variable {coff bs : List Byte} {ss : List Scnhdr} {h : NoffHeader} {n : SegmentName}
  (hd : Describes coff ss h bs) (hsound : Sound ss)

include hd

/-- A segment that is set is that of a section. -/
theorem exists_section (hn : n ≠ .uninitData) (hsize : 0 < (h.segment n).size) :
    ∃ t ∈ ss, t.s_size ≠ 0 ∧ segmentName t.s_name = some n ∧
      ∃ k : ℕ, h.segment n = ⟨t.s_paddr,headerSize + k,t.s_size⟩ ∧
        k + t.s_size.toNat ≤ bs.length := by
  by_contra hnone
  have hzero := hd.unset n fun t ht hts hname => by
    obtain ⟨k,hk,hlen,_⟩ := hd.placed t ht hts n hname hn
    exact hnone ⟨t,ht,hts,hname,k,hk,hlen⟩
  omega

include hsound

theorem loadable (hn : n ≠ .uninitData) : Loadable (h.bytes ++ bs) (h.segment n) := by
  intro hsize
  obtain ⟨t,ht,hts,_,k,hk,hlen⟩ := exists_section hd hn hsize
  have hinFile := ((inRange_iff.mp hd.range).2 n).2.1
  have hnonneg := hsound.nonneg t ht
  rw [hk] at hinFile ⊢
  refine ⟨hsound.range t ht hts,?_,?_⟩
  · simp only [Host.limit] at hinFile ⊢
    omega
  · rw [List.length_append,length_bytes]
    simp only
    push_cast
    omega

/-- An address belongs to one segment at most. -/
theorem occupies_unique {s : Scnhdr} (hs : s ∈ ss) (hname : segmentName s.s_name = some n)
    {a : ℕ} (ha : s.Covers a) {k : SegmentName} (hk : k ≠ .uninitData) (hkn : k ≠ n) :
    ¬ Occupies (h.segment k) a := by
  rintro ⟨h₁,h₂⟩
  obtain ⟨t,ht,_,htname,j,hj,_⟩ := exists_section hd hk (by omega)
  rw [hj] at h₁ h₂
  have hne : s ≠ t := by
    rintro rfl
    exact hkn (Option.some.inj (htname.symm.trans hname))
  have hsymm : Std.Symm fun s t : Scnhdr => ∀ a, ¬ (s.Covers a ∧ t.Covers a) :=
    ⟨fun _ _ h a hboth => h a hboth.symm⟩
  exact hsound.apart.forall hs ht hne a ⟨ha,h₁,h₂⟩

/-- The bytes of a section, in the memory that its segment was copied to. -/
theorem image_section {s : Scnhdr} (hs : s ∈ ss) (hbss : s.s_name ≠ bss) (hptr : 0 ≤ s.s_scnptr)
    (memory : Buffer) : (List.range s.s_size.toNat).map
      (fun j => image (h.bytes ++ bs) h memory (s.s_paddr.toNat + j)) = rawBytes coff s := by
  by_cases hzero : s.s_size = 0
  · simp [hzero,rawBytes]
  cases hname : segmentName s.s_name with
  | none => exact absurd hname (hd.known s hs hzero)
  | some n =>
    have hn : n ≠ .uninitData := by
      rintro rfl
      exact hbss (segmentName_inj hname rfl)
    obtain ⟨k,hk,hlen,hraw⟩ := hd.placed s hs hzero n hname hn
    have haddr := hsound.range s hs hzero
    have hnonneg := hsound.nonneg s hs
    rw [← hraw hptr]
    apply List.ext_getElem
    · simp only [List.length_map,List.length_range,List.length_take,List.length_drop]
      omega
    · intro j hj _
      rw [List.length_map,List.length_range] at hj
      have hcovers : s.Covers ((s.s_paddr.toNat + j : ℕ) : ℤ) := ⟨by omega,by omega⟩
      have hoccupies : Occupies (h.segment n) (s.s_paddr.toNat + j) := by
        rw [hk]
        exact hcovers
      rw [List.getElem_map,List.getElem_range,
        image_in (fun _ => loadable hd hsound) memory hn hoccupies fun _ hm hmn =>
          occupies_unique hd hsound hs hname hcovers hm hmn,hk]
      have hskip : (h.bytes ++ bs).drop ((headerSize : ℤ) + k).toNat = bs.drop k := by
        rw [show ((headerSize : ℤ) + k).toNat = h.bytes.length + k by rw [length_bytes]; omega,
          List.drop_append,List.drop_of_length_le (by omega)]
        simp
      simp only [hskip]
      rw [Nat.add_sub_cancel_left,List.getElem_take,ofList,List.getD_eq_getElem _ _
        (by rw [List.length_drop]; omega)]

end

/-- A COFF file that coff2noff accepts, with at most one section of each name, the sections
apart and small enough, is loaded as its image: the raw bytes of each section that is not
.bss at its address, and zero everywhere else.  A negative file pointer points to no raw
bytes. -/
theorem load_reproduces_image (coff noff : List Byte) (junk : Buffer)
    (hmain : Coff.main coff junk = .ok noff) (hsound : Sound (sections coff))
    (fs : Stub.FileSystem) (fileName : Path) (i : ℕ) (hname : fs.host.names fileName = some i)
    (hregular : fs.host.directory i = false) (hfile : fs.host.contents i = noff)
    (hgrants : (fs.host.openFd fileName .readWrite false false).1 ≠ -1) (m : Machine)
    (numPages : ℕ) (junk' : Buffer) :
    ∃ s' fs' m', (new m numPages).1.Load fs fileName (new m numPages).2 junk' =
        .ok (true,s',fs',m') ∧
      (∀ s ∈ sections coff, s.s_name ≠ bss → 0 ≤ s.s_scnptr →
        (List.range s.s_size.toNat).map (fun j => m'.mainMemory (s.s_paddr.toNat + j)) =
          rawBytes coff s) ∧
      ∀ a, a < MemorySize → (∀ s ∈ sections coff, s.s_name ≠ bss → ¬ s.Covers a) →
        m'.mainMemory a = 0#8 := by
  obtain ⟨h,bs,hnoff,hd⟩ := main_describes hmain hsound
  rw [hnoff] at hfile
  have hl : ∀ n, n ≠ .uninitData → Loadable (h.bytes ++ bs) (h.segment n) := fun _ hn =>
    loadable hd hsound hn
  have hnonneg := sum_nonneg hsound.nonneg
  have htotal := hsound.total
  rw [← hd.total] at hnonneg htotal
  obtain ⟨s',fs',hload⟩ := Load_ok (m := (new m numPages).2) hname hregular hgrants hfile hd.magic
    hd.range hl hnonneg htotal (new m numPages).1 junk'
  refine ⟨s',fs',_,hload,fun s hs hbss hptr => image_section hd hsound hs hbss hptr _,?_⟩
  intro a ha hnone
  have hout : ∀ k, k ≠ .uninitData → ¬ Occupies (h.segment k) a := by
    rintro k hk ⟨h₁,h₂⟩
    obtain ⟨t,ht,_,htname,j,hj,_⟩ := exists_section hd hk (by omega)
    rw [hj] at h₁ h₂
    refine hnone t ht ?_ ⟨h₁,h₂⟩
    intro hbss
    rw [hbss] at htname
    exact hk (Option.some.inj htname).symm
  simp only
  rw [image_out hl _ hout]
  exact if_pos ha

/-- A COFF file with a .bss section and, behind it in the table, two bytes of .text. -/
def exampleCoff : List Byte :=
  [0x62#8,1#8,2#8,0#8] ++ List.replicate 16 0#8 ++ [7#8,1#8] ++ List.replicate 54 0#8 ++
    (bss ++ List.replicate 4 0#8 ++ [128#8] ++ List.replicate 7 0#8 ++ [4#8] ++
      List.replicate 23 0#8) ++
    (text ++ List.replicate 11 0#8 ++ [2#8,0#8,0#8,0#8,156#8] ++ List.replicate 19 0#8) ++
    [171#8,205#8]

theorem sections_exampleCoff : sections exampleCoff = [⟨bss,128,4,0⟩,⟨text,0,2,156⟩] := by
  decide

theorem sound_exampleCoff : Sound (sections exampleCoff) := by
  rw [sections_exampleCoff]
  refine ⟨by decide,by decide,by decide,?_,by decide⟩
  simp only [List.pairwise_cons,List.mem_singleton,Scnhdr.Covers]
  refine ⟨?_,by simp⟩
  rintro t rfl a
  simp only
  omega

/-- A machine whose memory is in use. -/
def exampleMachine : Machine := ⟨fun _ => 0#32,fun _ => 255#8,.unset⟩

/-- The two bytes of .text are loaded to address 0, for example, and the rest is cleared. -/
theorem load_reproduces_image_text : ∃ noff s' fs' m',
    Coff.main exampleCoff (fun _ => 0#8) = .ok noff ∧
    (new exampleMachine 0).1.Load (.new (Host.oneFile 97#8 noff)) [97#8] (new exampleMachine 0).2
      (fun _ => 0#8) = .ok (true,s',fs',m') ∧
    m'.mainMemory 0 = 171#8 ∧ m'.mainMemory 1 = 205#8 ∧
    ∀ a, 2 ≤ a → a < MemorySize → m'.mainMemory a = 0#8 := by
  have hmain : ∃ noff, Coff.main exampleCoff (fun _ => 0#8) = .ok noff ∧ noff.length = 54 :=
    ⟨_,rfl,rfl⟩
  obtain ⟨noff,hmain,hlen⟩ := hmain
  have hgrants : ((Host.oneFile 97#8 noff).openFd [97#8] .readWrite false false).1 ≠ -1 := by
    simp [Host.openFd,Host.oneFile,Host.refuses,hlen,Host.limit]
  obtain ⟨s',fs',m',hload,hbytes,hzero⟩ := load_reproduces_image exampleCoff noff (fun _ => 0#8)
    hmain sound_exampleCoff (.new (Host.oneFile 97#8 noff)) [97#8] 3 rfl rfl rfl hgrants
    exampleMachine 0 fun _ => 0#8
  rw [sections_exampleCoff] at hbytes hzero
  have htext := hbytes ⟨text,0,2,156⟩ (by simp) (by decide) (by decide)
  have hraw : rawBytes exampleCoff ⟨text,0,2,156⟩ = [171#8,205#8] := by decide
  rw [hraw] at htext
  have hpair : [m'.mainMemory 0,m'.mainMemory 1] = [171#8,205#8] := htext
  simp only [List.cons.injEq,and_true] at hpair
  refine ⟨noff,s',fs',m',hmain,hload,hpair.1,hpair.2,fun a h₂ ha => hzero a ha ?_⟩
  simp only [List.mem_cons,List.not_mem_nil,or_false,Scnhdr.Covers]
  rintro t (rfl | rfl) hbss
  · exact absurd rfl hbss
  · simp only
    omega

end AddrSpace
end NachOS
