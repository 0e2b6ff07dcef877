import NachOS.AddrSpace
import NachOS.Noff
import NachOS.StubTransfer

/-! coff2noff (coff2noff/coff2noff.c, built with `RDATA` for a little-endian host): the
sections of a COFF file are copied one behind the other, and a NOFF header that says where
they are is written in front of them at the end. -/
namespace NachOS
namespace Coff

open StateMachine hiding Machine
open Memory NoffHeader

abbrev MIPSELMAGIC : ℕ := 0x0162
abbrev OMAGIC : ℕ := 0x107

/-- `sizeof(struct filehdr)`, `sizeof(struct aouthdr)` and `sizeof(struct scnhdr)` -/
abbrev filehdrSize : ℕ := 20
abbrev aouthdrSize : ℕ := 56
abbrev scnhdrSize : ℕ := 40

/-- Why the program stops with `exit(1)` and removes its output; `undefined` is a request
for a negative number of bytes. -/
inductive Exit
  | tooShort | notMipsel | notOmagic | bssAndSbss | unknownSegment (s_name : List Byte)
  | undefined
  deriving DecidableEq, Repr

/-- The fields of a section header that are used.  A name that fills all eight characters
is not one that the program knows. -/
structure Scnhdr where
  s_name : List Byte
  s_paddr : ℤ
  s_size : ℤ
  s_scnptr : ℤ
  deriving DecidableEq, Repr

def Scnhdr.fetch (b : Buffer) (k : ℕ) : Scnhdr :=
  ⟨cString b k 8,int b (k + 8),int b (k + 16),int b (k + 20)⟩

/-- The COFF file, open for reading. -/
structure Input where
  file : List Byte
  pos : ℕ

/-- `Read`, which stops the program if the file is too short. -/
def Input.Read (f : Input) (nBytes : ℤ) : Except Exit (List Byte × Input) :=
  if nBytes < 0 then .error .undefined
  else
    let bs := (f.file.drop f.pos).take nBytes.toNat
    if (bs.length : ℤ) ≠ nBytes then .error .tooShort
    else .ok (bs,{ f with pos := f.pos + bs.length })

/-- The host refuses a negative offset, which the program does not notice. -/
def Input.lseek (f : Input) (offset : ℤ) : Input :=
  if offset < 0 then f else { f with pos := offset.toNat }

/-- The NOFF file, open for writing. -/
structure Output where
  file : List Byte
  pos : ℕ

/-- `Write`, on a host that has room for the file. -/
def Output.Write (f : Output) (bs : List Byte) : Output :=
  ⟨Host.overwrite f.file bs f.pos,f.pos + bs.length⟩

def Output.lseek (f : Output) (offset : ℕ) : Output := { f with pos := offset }

structure State where
  fdIn : Input
  fdOut : Output
  inNoffFile : ℤ
  noffH : NoffHeader

def text : List Byte := [0x2e#8,0x74#8,0x65#8,0x78#8,0x74#8]
def data : List Byte := [0x2e#8,0x64#8,0x61#8,0x74#8,0x61#8]
def rdata : List Byte := [0x2e#8,0x72#8,0x64#8,0x61#8,0x74#8,0x61#8]
def bss : List Byte := [0x2e#8,0x62#8,0x73#8,0x73#8]

/-- Which segment the comparisons with `strcmp` find for a section. -/
def segmentName (s_name : List Byte) : Option SegmentName :=
  if s_name = text then some .code
  else if s_name = data then some .initData
  else if s_name = rdata then some .readonlyData
  else if s_name = bss then some .uninitData
  else none

def setSegment (h : NoffHeader) (n : SegmentName) (s : Segment) : NoffHeader :=
  { h with segment := Function.update h.segment n s }

/-- The branches for .text, .data and .rdata. -/
def copySegment (st : State) (s : Scnhdr) (n : SegmentName) : Except Exit State := do
  let noffH := setSegment st.noffH n ⟨s.s_paddr,st.inNoffFile,s.s_size⟩
  let (buffer,fdIn) ← (st.fdIn.lseek s.s_scnptr).Read s.s_size
  return ⟨fdIn,st.fdOut.Write buffer,wrap (st.inNoffFile + s.s_size),noffH⟩

/-- The branch for .bss; nothing is copied. -/
def copyBss (st : State) (s : Scnhdr) : Except Exit State :=
  let old := st.noffH.segment .uninitData
  if old.size = 0 then
    let new : Segment := ⟨s.s_paddr,old.inFileAddr,s.s_size⟩
    .ok { st with noffH := setSegment st.noffH .uninitData new }
  else if s.s_paddr = wrap (old.virtualAddr + old.size) then .error .bssAndSbss
  else
    let new : Segment := { old with size := wrap (old.size + s.s_size) }
    .ok { st with noffH := setSegment st.noffH .uninitData new }

def copySection (st : State) (s : Scnhdr) : Except Exit State :=
  if s.s_size = 0 then .ok st
  else
    match segmentName s.s_name with
    | none => .error (.unknownSegment s.s_name)
    | some .uninitData => copyBss st s
    | some n => copySegment st s n

/-- The loop over the sections. -/
def copySections (st : State) : List Scnhdr → Except Exit State
  | [] => .ok st
  | s :: ss => do
    let st ← copySection st s
    copySections st ss

/-- `noffH` before the loop: on the stack, with the magic number and the sizes set. -/
def initialHeader (junk : Buffer) : NoffHeader where
  noffMagic := NOFFMAGIC
  segment := fun n => { (NoffHeader.fetch junk).segment n with size := 0 }

def expect (c : Prop) [Decidable c] (e : Exit) : Except Exit Unit := if c then .ok () else .error e

/-- `main`: from the bytes of the COFF file to those of the NOFF file. -/
def main (coff : List Byte) (junk : Buffer) : Except Exit (List Byte) := do
  let (fileh,fdIn) ← Input.Read ⟨coff,0⟩ filehdrSize
  expect (short (ofList fileh) 0 = MIPSELMAGIC) .notMipsel
  let (systemh,fdIn) ← fdIn.Read aouthdrSize
  expect (short (ofList systemh) 0 = OMAGIC) .notOmagic
  let numsections := short (ofList fileh) 2
  let (raw,fdIn) ← fdIn.Read (numsections * scnhdrSize : ℕ)
  let sections := (List.range numsections).map fun i => Scnhdr.fetch (ofList raw) (scnhdrSize * i)
  let st ← copySections ⟨fdIn,Output.lseek ⟨[],0⟩ headerSize,headerSize,initialHeader junk⟩ sections
  return ((st.fdOut.lseek 0).Write st.noffH.bytes).file

/-! The image that a COFF file describes. -/

/-- The section headers behind the file header and the system header. -/
def sections (coff : List Byte) : List Scnhdr :=
  (List.range (short (ofList coff) 2)).map fun i =>
    Scnhdr.fetch (ofList coff) (filehdrSize + aouthdrSize + scnhdrSize * i)

/-- The bytes at the file pointer of a section. -/
def rawBytes (coff : List Byte) (s : Scnhdr) : List Byte :=
  (coff.drop s.s_scnptr.toNat).take s.s_size.toNat

def Scnhdr.Covers (s : Scnhdr) (a : ℤ) : Prop := s.s_paddr ≤ a ∧ a < s.s_paddr + s.s_size

/-- At most one section of each name has contents, and the sections are apart from each
other in a memory that has room for the stack as well. -/
structure Sound (ss : List Scnhdr) : Prop where
  nonneg : ∀ s ∈ ss, 0 ≤ s.s_size
  unique : ss.Pairwise fun s t => s.s_size ≠ 0 → t.s_size ≠ 0 → s.s_name ≠ t.s_name
  range : ∀ s ∈ ss, s.s_size ≠ 0 → 0 ≤ s.s_paddr ∧ s.s_paddr + s.s_size ≤ MemorySize
  apart : ss.Pairwise fun s t => ∀ a, ¬ (s.Covers a ∧ t.Covers a)
  total : (ss.map Scnhdr.s_size).sum + UserStackSize ≤ (NumPhysPages * PageSize : ℕ)

/-- What the header of a NOFF file says about the sections of a COFF file, if `bs` stands
behind the header: the segments with their bytes, and zero for what is missing. -/
structure Describes (coff : List Byte) (ss : List Scnhdr) (h : NoffHeader) (bs : List Byte) :
    Prop where
  magic : h.noffMagic = NOFFMAGIC
  range : h.InRange
  known : ∀ s ∈ ss, s.s_size ≠ 0 → segmentName s.s_name ≠ none
  placed : ∀ s ∈ ss, s.s_size ≠ 0 → ∀ n, segmentName s.s_name = some n → n ≠ .uninitData →
    ∃ k : ℕ, h.segment n = ⟨s.s_paddr,headerSize + k,s.s_size⟩ ∧
      k + s.s_size.toNat ≤ bs.length ∧
      (0 ≤ s.s_scnptr → (bs.drop k).take s.s_size.toNat = rawBytes coff s)
  unset : ∀ n, (∀ s ∈ ss, s.s_size ≠ 0 → segmentName s.s_name ≠ some n) → (h.segment n).size = 0
  total : (segmentNames.map fun n => (h.segment n).size).sum = (ss.map Scnhdr.s_size).sum

/-- The state of the loop after the sections `ss`. -/
structure Copied (coff : List Byte) (ss : List Scnhdr) (st : State) (bs : List Byte) : Prop where
  input : st.fdIn.file = coff
  pos : st.fdOut.pos = headerSize + bs.length
  file : st.fdOut.file.drop headerSize = bs
  next : st.inNoffFile = headerSize + bs.length
  length : (bs.length : ℤ) ≤ (ss.map Scnhdr.s_size).sum
  describes : Describes coff ss st.noffH bs

variable {coff bs : List Byte} {ss : List Scnhdr} {s : Scnhdr} {st st' : State} {n m : SegmentName}

theorem segmentName_inj {a b : List Byte} (ha : segmentName a = some n)
    (hb : segmentName b = some n) : a = b := by
  unfold segmentName at ha hb
  split_ifs at ha hb <;> cases ha <;> cases hb <;> subst_vars <;> rfl

theorem setSegment_same (h : NoffHeader) (n : SegmentName) (g : Segment) :
    (setSegment h n g).segment n = g := Function.update_self _ _ _

theorem setSegment_other (h : NoffHeader) (g : Segment) (hm : m ≠ n) :
    (setSegment h n g).segment m = h.segment m := Function.update_of_ne hm _ _

theorem sizes_setSegment (h : NoffHeader) (n : SegmentName) (g : Segment)
    (hzero : (h.segment n).size = 0) :
    (segmentNames.map fun m => ((setSegment h n g).segment m).size).sum =
      (segmentNames.map fun m => (h.segment m).size).sum + g.size := by
  cases n <;> simp [segmentNames,setSegment,Function.update,hzero] <;> omega

theorem inRange_setSegment {h : NoffHeader} (hr : h.InRange) (n : SegmentName) {g : Segment}
    (h₁ : -2 ^ 31 ≤ g.virtualAddr ∧ g.virtualAddr < 2 ^ 31)
    (h₂ : -2 ^ 31 ≤ g.inFileAddr ∧ g.inFileAddr < 2 ^ 31)
    (h₃ : -2 ^ 31 ≤ g.size ∧ g.size < 2 ^ 31) : (setSegment h n g).InRange := by
  rw [inRange_iff] at hr ⊢
  refine ⟨hr.1,fun m => ?_⟩
  by_cases hm : m = n
  · rw [hm,setSegment_same]
    exact ⟨h₁,h₂,h₃⟩
  · rw [setSegment_other h g hm]
    exact hr.2 m

/-- What `Read` delivers. -/
theorem Input.Read_ok {f f' : Input} {nBytes : ℤ} {buffer : List Byte}
    (h : f.Read nBytes = .ok (buffer,f')) : 0 ≤ nBytes ∧
      buffer = (f.file.drop f.pos).take nBytes.toNat ∧ (buffer.length : ℤ) = nBytes ∧
      f'.file = f.file ∧ f'.pos = f.pos + buffer.length := by
  unfold Input.Read at h
  by_cases hneg : nBytes < 0
  · rw [if_pos hneg] at h
    cases h
  · rw [if_neg hneg] at h
    by_cases hlen : (((f.file.drop f.pos).take nBytes.toNat).length : ℤ) = nBytes
    · simp only [hlen,ne_eq,not_true_eq_false,if_false] at h
      cases h
      exact ⟨by omega,rfl,hlen,rfl,rfl⟩
    · simp only [ne_eq,hlen,not_false_eq_true,if_true] at h
      cases h

theorem Input.lseek_file (f : Input) (offset : ℤ) : (f.lseek offset).file = f.file := by
  unfold Input.lseek
  split <;> rfl

/-- Writing at the end of what stands behind the header. -/
theorem drop_Write {f : Output} (hpos : f.pos = headerSize + (f.file.drop headerSize).length)
    (buffer : List Byte) :
    (f.Write buffer).file.drop headerSize = f.file.drop headerSize ++ buffer := by
  simp only [Output.Write,Host.overwrite]
  split
  · next hnil => rw [hnil,List.append_nil]
  · rw [List.length_drop] at hpos
    rw [List.take_of_length_le (by omega),List.drop_of_length_le (i := f.pos + buffer.length)
      (by omega),List.append_nil]
    by_cases hshort : f.file.length ≤ headerSize
    · have hlen : (f.file ++ List.replicate (f.pos - f.file.length) 0#8).length = headerSize := by
        simp only [List.length_append,List.length_replicate]
        omega
      rw [List.drop_of_length_le hshort,List.nil_append,← hlen,List.drop_left]
    · have hfull : f.pos - f.file.length = 0 := by omega
      rw [hfull,List.replicate_zero,List.append_nil,List.drop_append_of_le_length (by omega)]

/-! One section. -/

theorem copySection_cases (h : copySection st s = .ok st') : (s.s_size = 0 ∧ st' = st) ∨
    s.s_size ≠ 0 ∧ ∃ n, segmentName s.s_name = some n ∧
      (n ≠ .uninitData ∧ copySegment st s n = .ok st' ∨
        n = .uninitData ∧ copyBss st s = .ok st') := by
  unfold copySection at h
  by_cases hsize : s.s_size = 0
  · rw [if_pos hsize] at h
    cases h
    exact Or.inl ⟨hsize,rfl⟩
  · rw [if_neg hsize] at h
    cases hn : segmentName s.s_name with
    | none =>
      rw [hn] at h
      cases h
    | some n =>
      rw [hn] at h
      refine Or.inr ⟨hsize,n,rfl,?_⟩
      cases n with
      | uninitData => exact Or.inr ⟨rfl,h⟩
      | _ => exact Or.inl ⟨by decide,h⟩

/-- A section of a new name is described by a segment that was not set before. -/
theorem Describes.append {h : NoffHeader} (hd : Describes coff ss h bs) (hs : s.s_size ≠ 0)
    (hn : segmentName s.s_name = some n)
    (hnew : ∀ t ∈ ss, t.s_size ≠ 0 → segmentName t.s_name ≠ some n) {g : Segment}
    (hg : (setSegment h n g).InRange) (hsize : g.size = s.s_size) (buffer : List Byte)
    (hplaced : n ≠ .uninitData → ∃ k : ℕ, g = ⟨s.s_paddr,headerSize + k,s.s_size⟩ ∧
      k + s.s_size.toNat ≤ (bs ++ buffer).length ∧
      (0 ≤ s.s_scnptr → ((bs ++ buffer).drop k).take s.s_size.toNat = rawBytes coff s)) :
    Describes coff (ss ++ [s]) (setSegment h n g) (bs ++ buffer) := by
  refine ⟨hd.magic,hg,?_,?_,?_,?_⟩
  · intro t ht hsize'
    rcases List.mem_append.mp ht with ht | ht
    · exact hd.known t ht hsize'
    · rw [List.mem_singleton.mp ht,hn]
      exact Option.some_ne_none n
  · intro t ht hsize' m hm hdata
    rcases List.mem_append.mp ht with ht | ht
    · have hmn : m ≠ n := by
        rintro rfl
        exact hnew t ht hsize' hm
      obtain ⟨k,hk,hlen,hraw⟩ := hd.placed t ht hsize' m hm hdata
      refine ⟨k,?_,?_,fun hptr => ?_⟩
      · rw [setSegment_other h g hmn,hk]
      · rw [List.length_append]
        omega
      · rw [List.drop_append_of_le_length (by omega),List.take_append_of_le_length
          (by rw [List.length_drop]; omega),hraw hptr]
    · rw [List.mem_singleton.mp ht] at hm ⊢
      cases hn.symm.trans hm
      rw [setSegment_same]
      exact hplaced hdata
  · intro m hm
    have hmn : m ≠ n := by
      rintro rfl
      exact hm s (by simp) hs hn
    rw [setSegment_other h g hmn]
    exact hd.unset m fun t ht => hm t (List.mem_append_left _ ht)
  · rw [sizes_setSegment h n g (hd.unset n hnew),hd.total,hsize]
    simp

/-- An empty section changes nothing. -/
theorem Describes.append_empty {h : NoffHeader} (hd : Describes coff ss h bs) (hs : s.s_size = 0) :
    Describes coff (ss ++ [s]) h bs := by
  have hold : ∀ t ∈ ss ++ [s], t.s_size ≠ 0 → t ∈ ss := by
    intro t ht hsize
    rcases List.mem_append.mp ht with ht | ht
    · exact ht
    · rw [List.mem_singleton.mp ht] at hsize
      exact absurd hs hsize
  refine ⟨hd.magic,hd.range,fun t ht hsize => hd.known t (hold t ht hsize) hsize,
    fun t ht hsize => hd.placed t (hold t ht hsize) hsize,fun m hm => ?_,?_⟩
  · exact hd.unset m fun t ht => hm t (List.mem_append_left _ ht)
  · rw [hd.total]
    simp [hs]

namespace Copied

section

variable (hc : Copied coff ss st bs) (hs : s.s_size ≠ 0) (hn : segmentName s.s_name = some n)
  (hnew : ∀ t ∈ ss, t.s_size ≠ 0 → segmentName t.s_name ≠ some n)
  (haddr : 0 ≤ s.s_paddr ∧ s.s_paddr + s.s_size ≤ MemorySize) (hpos : 0 ≤ s.s_size)

include hc hs hn hnew haddr hpos

theorem segment (hroom : (ss.map Scnhdr.s_size).sum + s.s_size ≤ MemorySize)
    (hrun : copySegment st s n = .ok st') :
    ∃ bs', Copied coff (ss ++ [s]) st' bs' := by
  obtain ⟨⟨buffer,fdIn⟩,hread,ht⟩ := bind_ok.mp hrun
  cases ht
  obtain ⟨_,hbuffer,hlen,hfile,_⟩ := Input.Read_ok hread
  rw [Input.lseek_file,hc.input] at hfile
  have hlength := hc.length
  simp only [MemorySize,NumPhysPages,PageSize] at haddr hroom
  have hstart : st.fdOut.pos = headerSize + (st.fdOut.file.drop headerSize).length := by
    rw [hc.file,hc.pos]
  refine ⟨bs ++ buffer,hfile,?_,?_,?_,?_,?_⟩
  · simp only [Output.Write,hc.pos,List.length_append]
    omega
  · rw [drop_Write hstart,hc.file]
  · simp only [hc.next,List.length_append]
    rw [wrap_of_range (by omega) (by simp only [headerSize]; omega)]
    push_cast
    omega
  · simp only [List.length_append,List.map_append,List.sum_append,List.map_cons,List.map_nil,
      List.sum_cons,List.sum_nil]
    push_cast
    omega
  · refine hc.describes.append hs hn hnew ?_ rfl buffer fun _ => ⟨bs.length,?_,?_,fun hptr => ?_⟩
    · refine inRange_setSegment hc.describes.range n ?_ ?_ ?_
      · simp only
        omega
      · simp only [hc.next,headerSize]
        omega
      · simp only
        omega
    · rw [hc.next]
    · rw [List.length_append]
      omega
    · rw [List.drop_left,List.take_of_length_le (by omega),hbuffer,Input.lseek_file,hc.input,
        rawBytes,Input.lseek,if_neg (by omega)]

theorem uninitData (hbss : n = .uninitData) (hrun : copyBss st s = .ok st') :
    ∃ bs', Copied coff (ss ++ [s]) st' bs' := by
  subst hbss
  have hzero := hc.describes.unset .uninitData hnew
  simp only [copyBss,hzero,if_true] at hrun
  cases hrun
  have hlength := hc.length
  have hold := (inRange_iff.mp hc.describes.range).2 .uninitData
  simp only [MemorySize,NumPhysPages,PageSize] at haddr
  refine ⟨bs,hc.input,hc.pos,hc.file,hc.next,?_,?_⟩
  · simp only [List.map_append,List.sum_append,List.map_cons,List.map_nil,List.sum_cons,
      List.sum_nil]
    omega
  · have hd := hc.describes.append hs hn hnew
      (g := ⟨s.s_paddr,(st.noffH.segment .uninitData).inFileAddr,s.s_size⟩) ?_ rfl []
      fun hdata => absurd rfl hdata
    · rw [List.append_nil] at hd
      exact hd
    · refine inRange_setSegment hc.describes.range _ ?_ hold.2.1 ?_
      · simp only
        omega
      · simp only
        omega

end

/-- One section keeps the invariant of the loop. -/
theorem step (hc : Copied coff ss st bs) (hsound : Sound (ss ++ [s]))
    (hrun : copySection st s = .ok st') : ∃ bs', Copied coff (ss ++ [s]) st' bs' := by
  have hmem : s ∈ ss ++ [s] := by simp
  have hpos := hsound.nonneg s hmem
  rcases copySection_cases hrun with ⟨hzero,rfl⟩ | ⟨hs,n,hn,hcases⟩
  · refine ⟨bs,hc.input,hc.pos,hc.file,hc.next,?_,hc.describes.append_empty hzero⟩
    simpa [hzero] using hc.length
  · have hnew : ∀ t ∈ ss, t.s_size ≠ 0 → segmentName t.s_name ≠ some n := by
      intro t ht hsize hname
      have hpair := (List.pairwise_append.mp hsound.unique).2.2 t ht s (by simp)
      exact hpair hsize hs (segmentName_inj hname hn)
    have haddr := hsound.range s hmem hs
    have hroom : (ss.map Scnhdr.s_size).sum + s.s_size ≤ MemorySize := by
      have htotal := hsound.total
      simp only [List.map_append,List.sum_append,List.map_cons,List.map_nil,List.sum_cons,
        List.sum_nil] at htotal
      simp only [MemorySize] at htotal ⊢
      omega
    rcases hcases with ⟨_,hrun⟩ | ⟨hbss,hrun⟩
    · exact hc.segment hs hn hnew haddr hpos hroom hrun
    · exact hc.uninitData hs hn hnew haddr hpos hbss hrun

end Copied

theorem sum_nonneg (h : ∀ s ∈ ss, 0 ≤ s.s_size) : 0 ≤ (ss.map Scnhdr.s_size).sum := by
  apply List.sum_nonneg
  intro z hz
  obtain ⟨s,hs,rfl⟩ := List.mem_map.mp hz
  exact h s hs

/-- The first sections of a sound list are sound. -/
theorem Sound.left {ts : List Scnhdr} (h : Sound (ss ++ ts)) : Sound ss := by
  have hrest := sum_nonneg fun t ht => h.nonneg t (List.mem_append_right ss ht)
  have htotal := h.total
  rw [List.map_append,List.sum_append] at htotal
  refine ⟨fun s hs => h.nonneg s (List.mem_append_left _ hs),(List.pairwise_append.mp h.unique).1,
    fun s hs => h.range s (List.mem_append_left _ hs),(List.pairwise_append.mp h.apart).1,?_⟩
  omega

/-- The loop over the remaining sections. -/
theorem Copied.run {ts : List Scnhdr} (hc : Copied coff ss st bs) (hsound : Sound (ss ++ ts))
    (hrun : copySections st ts = .ok st') : ∃ bs', Copied coff (ss ++ ts) st' bs' := by
  induction ts generalizing ss st bs with
  | nil =>
    cases hrun
    rw [List.append_nil]
    exact ⟨bs,hc⟩
  | cons s ts ih =>
    obtain ⟨st₁,hstep,hrun⟩ := bind_ok.mp hrun
    rw [List.append_cons] at hsound ⊢
    obtain ⟨bs₁,hc₁⟩ := hc.step hsound.left hstep
    exact ih hc₁ hsound hrun

/-! The whole program. -/

theorem expect_bind_ok {α : Type} {c : Prop} [Decidable c] {e : Exit} {f : Unit → Except Exit α}
    {a : α} : (expect c e >>= f) = .ok a ↔ c ∧ f () = .ok a := by
  by_cases h : c <;> simp [expect,h,bind,Except.bind]

theorem Scnhdr.fetch_congr {b b' : Buffer} {k l : ℕ}
    (h : ∀ j, j < scnhdrSize → b (k + j) = b' (l + j)) :
    Scnhdr.fetch b k = Scnhdr.fetch b' l := by
  have hint : ∀ i, i + 4 ≤ scnhdrSize → int b (k + i) = int b' (l + i) := by
    intro i hi
    refine int_congr_shift fun j hj => ?_
    rw [Nat.add_assoc,Nat.add_assoc]
    exact h (i + j) (by omega)
  have hname : cString b k 8 = cString b' l 8 := cString_congr fun j hj =>
    h j (by simp only [scnhdrSize]; omega)
  rw [fetch,fetch,hname,hint 8 (by decide),hint 16 (by decide),hint 20 (by decide)]

theorem initial_describes (coff : List Byte) (junk : Buffer) :
    Describes coff [] (initialHeader junk) [] := by
  have hjunk := (inRange_iff.mp (inRange_fetch junk)).2
  have hmagic : -2 ^ 31 ≤ NOFFMAGIC ∧ NOFFMAGIC < 2 ^ 31 := by decide
  have hzero : -2 ^ 31 ≤ (0 : ℤ) ∧ (0 : ℤ) < 2 ^ 31 := by decide
  refine ⟨rfl,inRange_iff.mpr ⟨hmagic,fun n => ⟨(hjunk n).1,(hjunk n).2.1,hzero⟩⟩,?_,?_,
    fun _ _ => rfl,rfl⟩
  · intro s hs
    cases hs
  · intro s hs
    cases hs

/-- A slice of a file holds the bytes of the file from its start on. -/
theorem ofList_slice (coff : List Byte) (p : ℕ) {k n : ℕ} (hk : k < n) :
    ofList ((coff.drop p).take n) k = ofList coff (p + k) := by
  simp only [ofList,List.getD]
  rw [List.getElem?_take_of_lt hk,List.getElem?_drop]

theorem Input.Read_of_le {f : Input} {n : ℕ} (h : f.pos + n ≤ f.file.length) :
    f.Read n = .ok ((f.file.drop f.pos).take n,{ f with pos := f.pos + n }) := by
  have hlen : ((f.file.drop f.pos).take n).length = n := by
    rw [List.length_take,List.length_drop]
    omega
  unfold Input.Read
  rw [if_neg (by omega),Int.toNat_natCast]
  simp only [hlen,ne_eq,not_true_eq_false,if_false]

/-- The file has a file header, a system header and the section table, with the magic
numbers. -/
structure Headers (coff : List Byte) : Prop where
  length : filehdrSize + aouthdrSize + short (ofList coff) 2 * scnhdrSize ≤ coff.length
  mipsel : short (ofList coff) 0 = MIPSELMAGIC
  omagic : short (ofList coff) filehdrSize = OMAGIC

/-- What the program does with the section headers. -/
def finish (coff : List Byte) (junk : Buffer) : Except Exit (List Byte) := do
  let fdIn := ⟨coff,filehdrSize + aouthdrSize + short (ofList coff) 2 * scnhdrSize⟩
  let st ← copySections ⟨fdIn,Output.lseek ⟨[],0⟩ headerSize,headerSize,initialHeader junk⟩
    (sections coff)
  return ((st.fdOut.lseek 0).Write st.noffH.bytes).file

section Slices

variable {fileh systemh raw : List Byte} {n : ℕ} (hfileh : fileh = (coff.drop 0).take filehdrSize)
  (hsystemh : systemh = (coff.drop filehdrSize).take aouthdrSize)
  (hraw : raw = (coff.drop (filehdrSize + aouthdrSize)).take (n * scnhdrSize))

include hfileh in
theorem short_fileh {k : ℕ} (hk : k + 2 ≤ filehdrSize) :
    short (ofList fileh) k = short (ofList coff) k := by
  refine short_congr fun j hj => ?_
  rw [hfileh,ofList_slice _ _ (by omega),Nat.zero_add]

include hsystemh in
theorem short_systemh : short (ofList systemh) 0 = short (ofList coff) filehdrSize := by
  refine short_congr fun j hj => ?_
  rw [hsystemh,ofList_slice _ _ (by simp only [aouthdrSize]; omega),Nat.zero_add]

include hraw in
theorem fetch_raw : (List.range n).map (fun i => Scnhdr.fetch (ofList raw) (scnhdrSize * i)) =
    (List.range n).map fun i =>
      Scnhdr.fetch (ofList coff) (filehdrSize + aouthdrSize + scnhdrSize * i) := by
  refine List.map_congr_left fun i hi => Scnhdr.fetch_congr fun j hj => ?_
  have hin := List.mem_range.mp hi
  have hlt : scnhdrSize * i + j < n * scnhdrSize := by
    simp only [scnhdrSize] at hj ⊢
    omega
  rw [hraw,ofList_slice _ _ hlt,← Nat.add_assoc]

end Slices

theorem main_eq (h : Headers coff) (junk : Buffer) : main coff junk = finish coff junk := by
  have hlength := h.length
  have hread₁ := Input.Read_of_le (f := ⟨coff,0⟩) (n := filehdrSize) (by simp only; omega)
  have hread₂ := Input.Read_of_le (f := ⟨coff,0 + filehdrSize⟩) (n := aouthdrSize)
    (by simp only; omega)
  have hread₃ := Input.Read_of_le (f := ⟨coff,0 + filehdrSize + aouthdrSize⟩)
    (n := short (ofList coff) 2 * scnhdrSize) (by simp only; omega)
  simp only [Nat.zero_add] at hread₁ hread₂ hread₃
  have hnum := @short_fileh coff _ rfl 2 (by decide)
  have hmipsel := @short_fileh coff _ rfl 0 (by decide)
  have homagic := @short_systemh coff _ rfl
  rw [h.mipsel] at hmipsel
  rw [h.omagic] at homagic
  simp only [main,hread₁,hread₂,expect,hmipsel,homagic,hnum,hread₃,fetch_raw rfl,if_true,
    bind,Except.bind,pure,Except.pure,finish,sections]

/-- What coff2noff accepts has these headers. -/
theorem headers_of_main {noff : List Byte} {junk : Buffer} (hrun : main coff junk = .ok noff) :
    Headers coff := by
  obtain ⟨⟨fileh,f₁⟩,hread₁,hrun⟩ := bind_ok.mp hrun
  obtain ⟨hmipsel,hrun⟩ := expect_bind_ok.mp hrun
  obtain ⟨⟨systemh,f₂⟩,hread₂,hrun⟩ := bind_ok.mp hrun
  obtain ⟨homagic,hrun⟩ := expect_bind_ok.mp hrun
  obtain ⟨⟨raw,f₃⟩,hread₃,_⟩ := bind_ok.mp hrun
  obtain ⟨_,hfileh,hlen₁,hfile₁,hpos₁⟩ := Input.Read_ok hread₁
  obtain ⟨_,hsystemh,hlen₂,hfile₂,hpos₂⟩ := Input.Read_ok hread₂
  obtain ⟨_,hraw,hlen₃,_,_⟩ := Input.Read_ok hread₃
  simp only at hfile₁ hpos₁ hfileh
  have hat₁ : f₁.pos = filehdrSize := by omega
  have hat₂ : f₂.pos = filehdrSize + aouthdrSize := by omega
  rw [Int.toNat_natCast] at hfileh hsystemh hraw
  rw [hfile₁,hat₁] at hsystemh
  rw [short_fileh hfileh (by decide)] at hmipsel
  rw [short_systemh hsystemh] at homagic
  rw [short_fileh hfileh (by decide)] at hlen₃ hraw
  rw [hraw,hfile₂,hfile₁,hat₂,List.length_take,List.length_drop] at hlen₃
  refine ⟨?_,hmipsel,homagic⟩
  by_cases hzero : short (ofList coff) 2 = 0
  · rw [hsystemh,List.length_take,List.length_drop] at hlen₂
    rw [hzero,Nat.zero_mul]
    simp only [filehdrSize,aouthdrSize] at hlen₂ ⊢
    omega
  · simp only [scnhdrSize] at hlen₃ ⊢
    omega

/-- The NOFF file is a header that describes the sections, and their bytes. -/
theorem main_describes {noff : List Byte} {junk : Buffer} (hrun : main coff junk = .ok noff)
    (hsound : Sound (sections coff)) :
    ∃ h bs, noff = h.bytes ++ bs ∧ Describes coff (sections coff) h bs := by
  rw [main_eq (headers_of_main hrun)] at hrun
  obtain ⟨st,hcopy,hrun⟩ := bind_ok.mp hrun
  cases hrun
  have hstart : ∀ pos, Copied coff [] ⟨⟨coff,pos⟩,Output.lseek ⟨[],0⟩ headerSize,headerSize,
      initialHeader junk⟩ [] := fun _ => ⟨rfl,rfl,rfl,rfl,le_rfl,initial_describes coff junk⟩
  obtain ⟨bs,hc⟩ := (hstart _).run (show Sound ([] ++ sections coff) from hsound) hcopy
  refine ⟨st.noffH,bs,?_,hc.describes⟩
  have hne : st.noffH.bytes ≠ [] := by
    intro hnil
    have hlen := length_bytes st.noffH
    rw [hnil] at hlen
    cases hlen
  simp [Output.Write,Output.lseek,Host.overwrite,hne,← hc.file]

end Coff
end NachOS
