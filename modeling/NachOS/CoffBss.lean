import NachOS.Coff

/-! How coff2noff collects the .bss sections of a COFF file into one segment: the loop keeps
where the uninitialised data starts and how large it is. -/
namespace NachOS
namespace Coff

open StateMachine hiding Machine
open Memory NoffHeader

/-- The .bss sections that are not empty, in the order of the table. -/
def bssSections (ss : List Scnhdr) : List Scnhdr :=
  ss.filter fun s => s.s_size ≠ 0 ∧ s.s_name = bss

/-- Each further section starts where those before it end. -/
def Contiguous (bs : List Scnhdr) : Prop := ∀ b l s r, bs = b :: (l ++ s :: r) →
  s.s_paddr = wrap (b.s_paddr + ((b :: l).map Scnhdr.s_size).sum)

/-- A section that is empty, or .bss, or one whose bytes are in the file. -/
def ValidSection (coff : List Byte) (s : Scnhdr) : Prop :=
  s.s_size ≠ 0 → s.s_name ≠ bss → segmentName s.s_name ≠ none ∧ 0 ≤ s.s_scnptr ∧
    0 ≤ s.s_size ∧ s.s_scnptr + s.s_size ≤ coff.length

structure Valid (coff : List Byte) : Prop where
  headers : Headers coff
  sections : ∀ s ∈ sections coff, ValidSection coff s

def uninitData (noff : List Byte) : Segment := (fetch (ofList noff)).segment .uninitData

/-- The program succeeds exactly if the .bss sections are contiguous, and then its header
describes their union. -/
structure Merges (coff : List Byte) (junk : Buffer) : Prop where
  succeeds : (∃ noff, main coff junk = .ok noff) ↔ Contiguous (bssSections (sections coff))
  union : ∀ noff, main coff junk = .ok noff → ∀ a,
    ((uninitData noff).virtualAddr ≤ a ∧
      a < (uninitData noff).virtualAddr + (uninitData noff).size) ↔
    ∃ s ∈ bssSections (sections coff), s.Covers a

/-! The uninitialised data that the loop has collected. -/

/-- Start and size, unless nothing is collected. -/
def collected (g : Segment) : Option (ℤ × ℤ) :=
  if g.size = 0 then none else some (g.virtualAddr,g.size)

/-- One section more.  The size is an `int`. -/
def extend (c : Option (ℤ × ℤ)) (s : Scnhdr) : Option (ℤ × ℤ) :=
  match c with
  | none => some (s.s_paddr,s.s_size)
  | some (a,z) => if wrap (z + s.s_size) = 0 then none else some (a,wrap (z + s.s_size))

def collect (bs : List Scnhdr) : Option (ℤ × ℤ) := bs.foldl extend none

/-- Some section starts where what the loop has collected before it ends. -/
def Joins (bs : List Scnhdr) : Prop := ∃ l s r a z, bs = l ++ s :: r ∧
  collect l = some (a,z) ∧ s.s_paddr = wrap (a + z)

/-- After the sections `l` no section of `bs` does. -/
def Apart (l bs : List Scnhdr) : Prop := ∀ m s r a z, bs = m ++ s :: r →
  collect (l ++ m) = some (a,z) → s.s_paddr ≠ wrap (a + z)

variable {coff noff : List Byte} {l r ss ts : List Scnhdr} {s b : Scnhdr} {st st' : State}
  {junk : Buffer}

theorem collect_append (l : List Scnhdr) (s : Scnhdr) :
    collect (l ++ [s]) = extend (collect l) s := by
  simp [collect]

theorem not_joins_iff : ¬ Joins ss ↔ Apart [] ss := by
  constructor
  · intro h m s r a z hs hc he
    exact h ⟨m,s,r,a,z,hs,hc,he⟩
  · rintro h ⟨m,s,r,a,z,hs,hc,he⟩
    exact h m s r a z hs hc he

theorem apart_nil (l : List Scnhdr) : Apart l [] := by
  intro m s r a z h
  cases m <;> cases h

theorem apart_cons : Apart l (s :: r) ↔
    (∀ a z, collect l = some (a,z) → s.s_paddr ≠ wrap (a + z)) ∧ Apart (l ++ [s]) r := by
  constructor
  · intro h
    refine ⟨fun a z hc => h [] s r a z rfl (by rw [List.append_nil]; exact hc),?_⟩
    intro m t r' a z hr hc
    refine h (s :: m) t r' a z (by rw [hr]; rfl) ?_
    rw [List.append_cons]
    exact hc
  · rintro ⟨hs,hr⟩ m t r' a z he hc
    cases m with
    | nil =>
      cases he
      rw [List.append_nil] at hc
      exact hs a z hc
    | cons u m =>
      cases he
      rw [List.append_cons] at hc
      exact hr m t r' a z rfl hc

/-! The loop. -/

/-- The state of the loop after the .bss sections `l`. -/
structure Collecting (coff : List Byte) (l : List Scnhdr) (st : State) : Prop where
  input : st.fdIn.file = coff
  next : -2 ^ 31 ≤ st.inNoffFile ∧ st.inNoffFile < 2 ^ 31
  range : st.noffH.InRange
  bss : collected (st.noffH.segment .uninitData) = collect l

/-- The fields of a section header that the program read are `int`s. -/
def Scnhdr.InRange (s : Scnhdr) : Prop :=
  (-2 ^ 31 ≤ s.s_paddr ∧ s.s_paddr < 2 ^ 31) ∧ -2 ^ 31 ≤ s.s_size ∧ s.s_size < 2 ^ 31

theorem bssSections_cons (s : Scnhdr) (ss : List Scnhdr) :
    bssSections (s :: ss) = if s.s_size ≠ 0 ∧ s.s_name = bss then s :: bssSections ss
      else bssSections ss := by
  unfold bssSections
  rw [List.filter_cons]
  split <;> simp_all

theorem segmentName_uninitData {name : List Byte} (h : segmentName name = some .uninitData) :
    name = bss := segmentName_inj h (by decide)

namespace Collecting

/-- A section with bytes is copied, and leaves the uninitialised data alone. -/
theorem other (hc : Collecting coff l st) (hv : ValidSection coff s) (hr : s.InRange)
    (hno : ¬ (s.s_size ≠ 0 ∧ s.s_name = Coff.bss)) :
    ∃ st', copySection st s = .ok st' ∧ Collecting coff l st' := by
  by_cases hsize : s.s_size = 0
  · exact ⟨st,if_pos hsize,hc⟩
  have hname : s.s_name ≠ Coff.bss := fun h => hno ⟨hsize,h⟩
  obtain ⟨hknown,hptr,hpos,hlen⟩ := hv hsize hname
  obtain ⟨n,hn⟩ := Option.ne_none_iff_exists'.mp hknown
  have hdata : n ≠ .uninitData := by
    rintro rfl
    exact hname (segmentName_uninitData hn)
  have hread := Input.Read_of_le (f := st.fdIn.lseek s.s_scnptr) (n := s.s_size.toNat) (by
    rw [Input.lseek_file,hc.input,Input.lseek,if_neg (by omega)]
    simp only
    omega)
  rw [Int.toNat_of_nonneg hpos] at hread
  have hcopy : copySection st s = copySegment st s n := by
    unfold copySection
    rw [if_neg hsize,hn]
    cases n with
    | uninitData => exact absurd rfl hdata
    | _ => rfl
  refine ⟨_,hcopy.trans (bind_ok.mpr ⟨_,hread,rfl⟩),?_,wrap_range _,?_,?_⟩
  · rw [← hc.input]
    exact Input.lseek_file _ _
  · exact inRange_setSegment hc.range n hr.1 hc.next hr.2
  · rw [← hc.bss]
    exact congrArg collected (setSegment_other _ _ hdata.symm)

/-- A .bss section is merged unless it starts where the data collected so far ends. -/
theorem copyBss_iff (hc : Collecting coff l st) :
    (∃ st', copyBss st s = .ok st') ↔
      ∀ a z, collect l = some (a,z) → s.s_paddr ≠ wrap (a + z) := by
  have hbss := hc.bss
  simp only [copyBss]
  by_cases hzero : (st.noffH.segment .uninitData).size = 0
  · rw [if_pos hzero]
    rw [collected,if_pos hzero] at hbss
    simp [← hbss]
  · rw [if_neg hzero]
    rw [collected,if_neg hzero] at hbss
    by_cases hjoin : s.s_paddr = wrap ((st.noffH.segment .uninitData).virtualAddr +
        (st.noffH.segment .uninitData).size)
    · rw [if_pos hjoin]
      simp [← hbss,hjoin]
    · rw [if_neg hjoin]
      simp [← hbss,hjoin]

theorem copyBss_ok (hc : Collecting coff l st) (hr : s.InRange) (hsize : s.s_size ≠ 0)
    (hrun : copyBss st s = .ok st') : Collecting coff (l ++ [s]) st' := by
  have hbss := hc.bss
  have hold := (inRange_iff.mp hc.range).2 .uninitData
  simp only [copyBss] at hrun
  by_cases hzero : (st.noffH.segment .uninitData).size = 0
  · rw [if_pos hzero] at hrun
    cases hrun
    refine ⟨hc.input,hc.next,inRange_setSegment hc.range _ hr.1 hold.2.1 hr.2,?_⟩
    rw [collected,if_pos hzero] at hbss
    rw [collect_append,← hbss,setSegment_same,collected,if_neg hsize,extend]
  · rw [if_neg hzero] at hrun
    by_cases hjoin : s.s_paddr = wrap ((st.noffH.segment .uninitData).virtualAddr +
        (st.noffH.segment .uninitData).size)
    · rw [if_pos hjoin] at hrun
      cases hrun
    · rw [if_neg hjoin] at hrun
      cases hrun
      refine ⟨hc.input,hc.next,inRange_setSegment hc.range _ hold.1 hold.2.1 (wrap_range _),?_⟩
      rw [collected,if_neg hzero] at hbss
      rw [collect_append,← hbss,setSegment_same,collected,extend]

/-- The loop over the remaining sections succeeds exactly if no .bss section among them
starts where the data collected before it ends. -/
theorem copySections_iff (hc : Collecting coff l st) (hv : ∀ s ∈ ts, ValidSection coff s)
    (hr : ∀ s ∈ ts, s.InRange) :
    ((∃ st', copySections st ts = .ok st') ↔ Apart l (bssSections ts)) ∧
      ∀ st', copySections st ts = .ok st' → Collecting coff (l ++ bssSections ts) st' := by
  induction ts generalizing l st with
  | nil =>
    refine ⟨⟨fun _ => apart_nil l,fun _ => ⟨st,rfl⟩⟩,fun st' hrun => ?_⟩
    cases hrun
    rw [show bssSections [] = [] from rfl,List.append_nil]
    exact hc
  | cons s ts ih =>
    have hvs := hv s List.mem_cons_self
    have hrs := hr s List.mem_cons_self
    have hvt : ∀ t ∈ ts, ValidSection coff t := fun t ht => hv t (List.mem_cons_of_mem s ht)
    have hrt : ∀ t ∈ ts, t.InRange := fun t ht => hr t (List.mem_cons_of_mem s ht)
    rw [bssSections_cons]
    by_cases hs : s.s_size ≠ 0 ∧ s.s_name = Coff.bss
    · have hcopy : copySection st s = copyBss st s := by
        unfold copySection
        rw [if_neg hs.1,hs.2]
        rfl
      rw [if_pos hs,apart_cons,← hc.copyBss_iff]
      constructor
      · constructor
        · rintro ⟨st',hrun⟩
          obtain ⟨st₁,hstep,hrun⟩ := bind_ok.mp hrun
          rw [hcopy] at hstep
          exact ⟨⟨st₁,hstep⟩,(ih (hc.copyBss_ok hrs hs.1 hstep) hvt hrt).1.mp ⟨st',hrun⟩⟩
        · rintro ⟨⟨st₁,hstep⟩,hrest⟩
          obtain ⟨st',hrun⟩ := (ih (hc.copyBss_ok hrs hs.1 hstep) hvt hrt).1.mpr hrest
          exact ⟨st',bind_ok.mpr ⟨st₁,hcopy.trans hstep,hrun⟩⟩
      · intro st' hrun
        obtain ⟨st₁,hstep,hrun⟩ := bind_ok.mp hrun
        rw [hcopy] at hstep
        rw [List.append_cons]
        exact (ih (hc.copyBss_ok hrs hs.1 hstep) hvt hrt).2 st' hrun
    · obtain ⟨st₁,hstep,hc₁⟩ := hc.other hvs hrs hs
      have hrun : copySections st (s :: ts) = copySections st₁ ts := by
        rw [copySections,hstep]
        rfl
      rw [if_neg hs,hrun]
      exact ih hc₁ hvt hrt

end Collecting

/-! The whole program. -/

theorem collecting_start (coff : List Byte) (junk : Buffer) : Collecting coff []
    ⟨⟨coff,filehdrSize + aouthdrSize + short (ofList coff) 2 * scnhdrSize⟩,
      Output.lseek ⟨[],0⟩ headerSize,headerSize,initialHeader junk⟩ :=
  ⟨rfl,⟨show -2 ^ 31 ≤ (headerSize : ℤ) by decide,show (headerSize : ℤ) < 2 ^ 31 by decide⟩,
    (initial_describes coff junk).range,rfl⟩

theorem sections_inRange (coff : List Byte) : ∀ s ∈ sections coff, s.InRange := by
  intro s hs
  obtain ⟨i,_,rfl⟩ := List.mem_map.mp hs
  exact ⟨int_range _ _,int_range _ _⟩

theorem main_ok_iff (hv : Valid coff) (junk : Buffer) : (∃ noff, main coff junk = .ok noff) ↔
    ¬ Joins (bssSections (sections coff)) := by
  have hloop := ((collecting_start coff junk).copySections_iff hv.sections
    (sections_inRange coff)).1
  rw [main_eq hv.headers,not_joins_iff,← hloop]
  constructor
  · rintro ⟨noff,hrun⟩
    obtain ⟨st,hcopy,_⟩ := bind_ok.mp hrun
    exact ⟨st,hcopy⟩
  · rintro ⟨st,hcopy⟩
    exact ⟨_,bind_ok.mpr ⟨st,hcopy,rfl⟩⟩

/-- The header in front of the NOFF file is read back as it was written. -/
theorem fetch_Write {h : NoffHeader} (hr : h.InRange) (f : Output) :
    fetch (ofList ((f.lseek 0).Write h.bytes).file) = h := by
  have hne : h.bytes ≠ [] := by
    intro hnil
    have hlen := length_bytes h
    rw [hnil] at hlen
    cases hlen
  refine fetch_of_bytes hr fun k hk => ?_
  have hlt : k < h.bytes.length := by
    rw [length_bytes]
    exact hk
  simp [Output.Write,Output.lseek,Host.overwrite,hne,ofList,List.getD,
    List.getElem?_append_left hlt]

theorem main_collected (hv : Valid coff) (hrun : main coff junk = .ok noff) :
    collected (uninitData noff) = collect (bssSections (sections coff)) := by
  rw [main_eq hv.headers] at hrun
  obtain ⟨st,hcopy,hrun⟩ := bind_ok.mp hrun
  cases hrun
  have hc := ((collecting_start coff junk).copySections_iff hv.sections
    (sections_inRange coff)).2 st hcopy
  rw [uninitData,fetch_Write hc.range,hc.bss,List.nil_append]

/-- With at most one section there is nothing to join. -/
theorem of_length_le_one (h : ss.length ≤ 1) : ¬ Joins ss ∧ Contiguous ss := by
  constructor
  · rintro ⟨m,s,r,a,z,rfl,hc,_⟩
    cases m with
    | nil => cases hc
    | cons t m =>
      simp only [List.length_append,List.length_cons] at h
      omega
  · rintro b l s r rfl
    simp only [List.length_append,List.length_cons] at h
    omega

/-- The second section starts at the end of the first, or it does not. -/
theorem not_joins_and_contiguous (hne : ∀ s ∈ ss, s.s_size ≠ 0) (h : 1 < ss.length) :
    Joins ss ∨ ¬ Contiguous ss := by
  match ss,h with
  | b :: s :: r,_ =>
    by_cases he : s.s_paddr = wrap (b.s_paddr + b.s_size)
    · exact Or.inl ⟨[b],s,r,b.s_paddr,b.s_size,rfl,rfl,he⟩
    · refine Or.inr fun hc => he ?_
      have hb := hc b [] s r rfl
      simpa using hb

theorem covers_of_collected {g : Segment} (h : ss.length ≤ 1)
    (hg : collected g = collect ss) (a : ℤ) :
    (g.virtualAddr ≤ a ∧ a < g.virtualAddr + g.size) ↔ ∃ s ∈ ss, s.Covers a := by
  match ss,h with
  | [],_ =>
    have hzero : g.size = 0 := by
      by_contra hne
      rw [collected,if_neg hne] at hg
      cases hg
    simp only [hzero,List.not_mem_nil,false_and,exists_false,iff_false]
    omega
  | [s],_ =>
    by_cases hzero : g.size = 0
    · rw [collected,if_pos hzero] at hg
      cases hg
    · rw [collected,if_neg hzero] at hg
      obtain ⟨h₁,h₂⟩ := Prod.mk.inj (Option.some.inj hg)
      simp [h₁,h₂,Scnhdr.Covers]

/-- For every COFF file whose other sections are valid: the .bss sections are merged as they
should be exactly if there is at most one, or if among the further ones some start where the
data collected before them ends and some do not. -/
theorem merges_iff (hv : Valid coff) (junk : Buffer) : Merges coff junk ↔
    (bssSections (sections coff)).length ≤ 1 ∨
      Joins (bssSections (sections coff)) ∧ ¬ Contiguous (bssSections (sections coff)) := by
  have hok := main_ok_iff hv junk
  have hne : ∀ s ∈ bssSections (sections coff), s.s_size ≠ 0 := by
    intro s hs
    have hmem := (List.mem_filter.mp hs).2
    exact (of_decide_eq_true hmem).1
  by_cases hone : (bssSections (sections coff)).length ≤ 1
  · obtain ⟨hjoin,hcont⟩ := of_length_le_one hone
    refine iff_of_true ⟨?_,fun noff hrun a => ?_⟩ (Or.inl hone)
    · rw [hok]
      exact iff_of_true hjoin hcont
    · exact covers_of_collected hone (main_collected hv hrun) a
  · have hboth := not_joins_and_contiguous hne (by omega)
    constructor
    · intro hm
      have hiff := hok.symm.trans hm.succeeds
      refine Or.inr ?_
      rcases hboth with hj | hno
      · exact ⟨hj,fun hc => hiff.mpr hc hj⟩
      · exact ⟨by_contra fun hj => hno (hiff.mp hj),hno⟩
    · rintro (hle | ⟨hj,hno⟩)
      · exact absurd hle hone
      · refine ⟨hok.trans (iff_of_false (not_not_intro hj) hno),fun noff hrun => ?_⟩
        exact absurd hj (hok.mp ⟨noff,hrun⟩)

/-- A section header with its name and the last bytes of address, size and file pointer. -/
def sectionHeader (name : List Byte) (paddr size scnptr : Byte) : List Byte :=
  name ++ List.replicate (8 - name.length) 0#8 ++ [paddr] ++ List.replicate 7 0#8 ++ [size] ++
    List.replicate 3 0#8 ++ [scnptr] ++ List.replicate 19 0#8

/-- A COFF file with four bytes of .text at address 0 and with the .bss sections `bs`, each
given by address and size. -/
def bssCoff (bs : List (Byte × Byte)) : List Byte :=
  [0x62#8,1#8,BitVec.ofNat 8 (bs.length + 1),0#8] ++ List.replicate 16 0#8 ++ [7#8,1#8] ++
    List.replicate 54 0#8 ++ sectionHeader text 0#8 4#8 (BitVec.ofNat 8 (116 + 40 * bs.length)) ++
    (bs.flatMap fun s => sectionHeader bss s.1 s.2 0#8) ++ [1#8,2#8,3#8,4#8]

theorem length_bssCoff (bs : List (Byte × Byte)) :
    (bssCoff bs).length = 120 + 40 * bs.length := by
  simp [bssCoff,sectionHeader,text,bss,List.length_flatMap]
  omega

theorem valid_bssCoff {bs : List (Byte × Byte)} (ss : List Scnhdr)
    (hmipsel : short (ofList (bssCoff bs)) 0 = MIPSELMAGIC)
    (homagic : short (ofList (bssCoff bs)) filehdrSize = OMAGIC)
    (hsections : sections (bssCoff bs) = ⟨text,0,4,116 + 40 * bs.length⟩ :: ss)
    (hcount : ss.length = bs.length) (hbss : ∀ s ∈ ss, s.s_name = bss) : Valid (bssCoff bs) := by
  refine ⟨⟨?_,hmipsel,homagic⟩,?_⟩
  · have hshort := congrArg List.length hsections
    rw [sections,List.length_map,List.length_range,List.length_cons,hcount] at hshort
    rw [hshort,length_bssCoff]
    simp only [filehdrSize,aouthdrSize,scnhdrSize]
    omega
  · rw [hsections]
    intro s hs _ hname
    rcases List.mem_cons.mp hs with rfl | hs
    · have hname : segmentName text ≠ none := by decide
      rw [length_bssCoff]
      exact ⟨hname,by simp only; omega,by norm_num,by push_cast; omega⟩
    · exact absurd (hbss s hs) hname

/-- Three sections, the third one behind a gap. -/
def gappedCoff : List Byte := bssCoff [(128#8,4#8),(132#8,4#8),(200#8,4#8)]

theorem valid_bssCoff_one : Valid (bssCoff [(128#8,4#8)]) :=
  valid_bssCoff [⟨bss,128,4,0⟩] (by decide) (by decide) (by decide) rfl (by decide)

theorem valid_gappedCoff : Valid gappedCoff :=
  valid_bssCoff [⟨bss,128,4,0⟩,⟨bss,132,4,0⟩,⟨bss,200,4,0⟩] (by decide) (by decide)
    (by decide) rfl (by decide)

/-- One .bss section is described in the header.  Three of them, with a gap in front of the
last one, are rejected, as they should be. -/
theorem merges_iff_three : Valid (bssCoff [(128#8,4#8)]) ∧
    Merges (bssCoff [(128#8,4#8)]) (fun _ => 0#8) ∧
    (∃ noff, main (bssCoff [(128#8,4#8)]) (fun _ => 0#8) = .ok noff ∧
      (uninitData noff).virtualAddr = 128 ∧ (uninitData noff).size = 4) ∧
    Valid gappedCoff ∧
    Merges gappedCoff (fun _ => 0#8) ∧
    ¬ ∃ noff, main gappedCoff (fun _ => 0#8) = .ok noff := by
  have hone := (merges_iff valid_bssCoff_one fun _ => 0#8).mpr (Or.inl (by decide))
  have hbss : bssSections (sections gappedCoff) =
      [⟨bss,128,4,0⟩,⟨bss,132,4,0⟩,⟨bss,200,4,0⟩] := by decide
  have hgap : ¬ Contiguous (bssSections (sections gappedCoff)) := fun hc =>
    absurd (hc _ [_] _ _ hbss) (by decide)
  have hthree := (merges_iff valid_gappedCoff fun _ => 0#8).mpr
    (Or.inr ⟨⟨[⟨bss,128,4,0⟩],_,_,128,4,hbss,by decide,by decide⟩,hgap⟩)
  exact ⟨valid_bssCoff_one,hone,⟨_,rfl,by decide,by decide⟩,valid_gappedCoff,hthree,
    fun hok => hgap (hthree.succeeds.mp hok)⟩

set_option maxRecDepth 1000 in
/-- Two sections side by side are rejected; two with a gap between them are accepted, and the
header describes other addresses. -/
theorem bss_merged_apart : (main (bssCoff [(128#8,4#8),(132#8,4#8)]) (fun _ => 0#8) =
      .error .bssAndSbss ∧ ¬ Merges (bssCoff [(128#8,4#8),(132#8,4#8)]) fun _ => 0#8) ∧
    ∃ noff, main (bssCoff [(128#8,4#8),(200#8,4#8)]) (fun _ => 0#8) = .ok noff ∧
      (uninitData noff).virtualAddr = 128 ∧ (uninitData noff).size = 8 := by
  have hrun : main (bssCoff [(128#8,4#8),(132#8,4#8)]) (fun _ => 0#8) = .error .bssAndSbss := rfl
  refine ⟨⟨hrun,fun hm => ?_⟩,?_⟩
  · have hcont : Contiguous (bssSections (sections (bssCoff [(128#8,4#8),(132#8,4#8)]))) := by
      rw [show bssSections (sections (bssCoff [(128#8,4#8),(132#8,4#8)])) =
        [⟨bss,128,4,0⟩,⟨bss,132,4,0⟩] by decide]
      intro b l s r h
      match l with
      | [] =>
        cases h
        decide
      | t :: l =>
        have hlen := congrArg List.length h
        simp at hlen
    obtain ⟨noff,hok⟩ := hm.succeeds.mpr hcont
    cases hrun.symm.trans hok
  · exact ⟨_,rfl,by decide,by decide⟩

end Coff
end NachOS
