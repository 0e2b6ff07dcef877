import NachOS.AddrSpace
import NachOS.MipsEffect

/-! Address translation with any table: what the processor grants (machine/translate.cc), and
where the kernel's own translation (userprog/addrspace.cc) agrees with it. -/
namespace NachOS

open StateMachine hiding Machine
open Hardware

namespace Translation

/-- The test of the loop over the TLB. -/
def Matches (e : ℕ → TranslationEntry) (vpn i : ℕ) : Prop :=
  (e i).valid = true ∧ (e i).virtualPage.toInt = vpn

/-- Entry `i` is valid and is the one for a virtual page; in the TLB the first one counts. -/
def Maps (t : Translation) (vpn i : ℕ) : Prop :=
  match t with
  | .unset => False
  | .pageTable e pageTableSize => i = vpn ∧ vpn < pageTableSize ∧ (e i).valid = true
  | .tlb e => i < TLBSize ∧ Matches e vpn i ∧ ∀ j < i, ¬ Matches e vpn j

theorem findTlb_some_iff {e : ℕ → TranslationEntry} {vpn i n j : ℕ} :
    Machine.findTlb e vpn i n = some j ↔
      i ≤ j ∧ j < i + n ∧ Matches e vpn j ∧ ∀ k, i ≤ k → k < j → ¬ Matches e vpn k := by
  induction n generalizing i with
  | zero =>
    simp only [Machine.findTlb,reduceCtorEq,false_iff]
    omega
  | succ n ih =>
    rw [Machine.findTlb]
    split
    · next hmatch =>
      simp only [Option.some.injEq]
      constructor
      · rintro rfl
        exact ⟨le_rfl,by omega,hmatch,by omega⟩
      · rintro ⟨hle,_,_,hfirst⟩
        by_contra hne
        exact hfirst i le_rfl (by omega) hmatch
    · next hmatch =>
      rw [ih]
      constructor
      · rintro ⟨hle,hlt,hj,hfirst⟩
        refine ⟨by omega,by omega,hj,fun k hk hkj => ?_⟩
        rcases hk.eq_or_lt with rfl | hk
        · exact hmatch
        · exact hfirst k hk hkj
      · rintro ⟨hle,hlt,hj,hfirst⟩
        have hne : i ≠ j := by
          rintro rfl
          exact hmatch hj
        exact ⟨by omega,by omega,hj,fun k hk hkj => hfirst k (by omega) hkj⟩

theorem index_ok_iff {t : Translation} {vpn i : ℕ} : t.index vpn = .ok i ↔ t.Maps vpn i := by
  cases t with
  | unset => simp [index,Maps]
  | pageTable e size =>
    simp only [index,Maps]
    split_ifs with hsize hvalid
    · simp only [false_iff]
      omega
    · simp only [false_iff]
      rintro ⟨rfl,_,h⟩
      rw [hvalid] at h
      cases h
    · simp only [Except.ok.injEq]
      constructor
      · rintro rfl
        exact ⟨rfl,by omega,by simpa using hvalid⟩
      · rintro ⟨rfl,_,_⟩
        rfl
  | tlb e =>
    have hfirst := @findTlb_some_iff e vpn 0 TLBSize i
    simp only [index,Maps]
    cases hfind : Machine.findTlb e vpn 0 TLBSize with
    | none =>
      rw [hfind] at hfirst
      simp only [reduceCtorEq,false_iff] at hfirst ⊢
      intro h
      exact hfirst ⟨Nat.zero_le _,by omega,h.2.1,fun k _ hk => h.2.2 k hk⟩
    | some j =>
      rw [hfind] at hfirst
      simp only [Except.ok.injEq,Option.some.injEq] at hfirst ⊢
      rw [hfirst]
      simp

end Translation

namespace Hardware.Machine

section

variable {m : Machine} {x : BitVec 32} {size : ℕ} {writing : Bool}

/-- What an access needs: entry `i` of the table maps the page to the frame `frame`. -/
structure Grants (t : Translation) (x : BitVec 32) (size : ℕ) (writing : Bool) (i frame : ℕ) :
    Prop where
  aligned : x.toNat % size = 0
  maps : t.Maps (x.toNat / PageSize) i
  frame_eq : (t.entries i).physicalPage = BitVec.ofNat 32 frame
  frame_lt : frame < NumPhysPages
  allowed : ¬ ((t.entries i).readOnly = true ∧ writing = true)

/-- The access that is granted: its bytes are in one frame, and one entry is marked. -/
structure Granted (m m' : Machine) (x : BitVec 32) (size : ℕ) (writing : Bool) (i frame p : ℕ) :
    Prop where
  address : p = frame * PageSize + x.toNat % PageSize
  inside : frame * PageSize ≤ p ∧ p + size ≤ (frame + 1) * PageSize
  marked : m' = { m with translation := m.translation.touch i writing }

theorem aligned_iff (hsize : size = 1 ∨ size = 2 ∨ size = 4) :
    ¬ (size = 4 ∧ x.toNat % 4 ≠ 0 ∨ size = 2 ∧ x.toNat % 2 ≠ 0) ↔ x.toNat % size = 0 := by
  rcases hsize with rfl | rfl | rfl <;> omega

/-- An aligned access does not leave its page. -/
theorem page_fits (hsize : size = 1 ∨ size = 2 ∨ size = 4) (haligned : x.toNat % size = 0) :
    x.toNat % PageSize + size ≤ PageSize := by
  simp only [PageSize]
  rcases hsize with rfl | rfl | rfl <;> omega

theorem frame_fits (hsize : size = 1 ∨ size = 2 ∨ size = 4) (haligned : x.toNat % size = 0)
    {frame : ℕ} (hframe : frame < NumPhysPages) :
    frame * PageSize + x.toNat % PageSize + size ≤ MemorySize := by
  have hinside := page_fits hsize haligned
  simp only [NumPhysPages,MemorySize,PageSize] at hframe hinside ⊢
  omega

theorem Grants.unique {t : Translation} {i frame i' frame' : ℕ}
    (h : Grants t x size writing i frame) (h' : Grants t x size writing i' frame') :
    i = i' ∧ frame = frame' := by
  have hi : i = i' := by
    have hindex := Translation.index_ok_iff.mpr h.maps
    rw [Translation.index_ok_iff.mpr h'.maps] at hindex
    exact (Except.ok.inj hindex).symm
  refine ⟨hi,?_⟩
  have hframe := h.frame_eq
  rw [hi,h'.frame_eq] at hframe
  have hlt := h.frame_lt
  have hlt' := h'.frame_lt
  simp only [NumPhysPages] at hlt hlt'
  have hnat := congrArg BitVec.toNat hframe
  rw [BitVec.toNat_ofNat,BitVec.toNat_ofNat] at hnat
  omega

/-- The access is refused and nothing changes, or it is granted. -/
theorem translate_cases (hset : m.translation.isSet = true)
    (hsize : size = 1 ∨ size = 2 ∨ size = 4) (physAddr : ℕ) :
    (∃ e, e ≠ .noException ∧ m.Translate physAddr x size writing = .ok (e,physAddr,m) ∧
      ∀ i frame, ¬ Grants m.translation x size writing i frame) ∨
    ∃ i frame, Grants m.translation x size writing i frame ∧
      m.Translate physAddr x size writing = .ok (.noException,frame * PageSize + x.toNat % PageSize,
        { m with translation := m.translation.touch i writing }) := by
  unfold Translate
  split
  · next halign =>
    refine Or.inl ⟨_,by decide,rfl,fun i frame h => ?_⟩
    exact (aligned_iff hsize).mpr h.aligned halign
  · next halign =>
    simp only [check_of hset,bind,Except.bind,Translation.physical]
    cases hindex : m.translation.index (x.toNat / PageSize) with
    | error e =>
      refine Or.inl ⟨e,Translation.index_error_ne hindex,rfl,fun i frame h => ?_⟩
      cases hindex.symm.trans (Translation.index_ok_iff.mpr h.maps)
    | ok i =>
      have hmaps := Translation.index_ok_iff.mp hindex
      have hsame : ∀ j, m.translation.Maps (x.toNat / PageSize) j → j = i := fun j hj =>
        (Except.ok.inj (hindex.symm.trans (Translation.index_ok_iff.mpr hj))).symm
      by_cases hreadOnly : (m.translation.entries i).readOnly = true ∧ writing = true
      · simp only [if_pos hreadOnly]
        refine Or.inl ⟨_,by decide,rfl,fun j frame h => h.allowed ?_⟩
        rw [hsame j h.maps]
        exact hreadOnly
      · by_cases hframe : (m.translation.entries i).physicalPage.toNat ≥ NumPhysPages
        · simp only [if_neg hreadOnly,if_pos hframe]
          refine Or.inl ⟨_,by decide,rfl,fun j frame h => ?_⟩
          have heq := h.frame_eq
          have hlt := h.frame_lt
          rw [hsame j h.maps] at heq
          rw [heq,BitVec.toNat_ofNat] at hframe
          exact absurd ((Nat.mod_le _ _).trans_lt hlt) (Nat.not_lt.mpr hframe)
        · have hlt : (m.translation.entries i).physicalPage.toNat < NumPhysPages := by omega
          refine Or.inr ⟨i,(m.translation.entries i).physicalPage.toNat,
            ⟨(aligned_iff hsize).mp halign,hmaps,?_,hlt,hreadOnly⟩,?_⟩
          · rw [BitVec.ofNat_toNat,BitVec.setWidth_eq]
          · have hfits := frame_fits hsize ((aligned_iff hsize).mp halign) hlt
            simp only [if_neg hreadOnly,if_neg hframe,pure,Except.pure,check_of hfits]

/-- Translation never fails its assertion; it grants an access just if the table does, and
marks the entry used then, and nothing else. -/
theorem translate_exact (hset : m.translation.isSet = true)
    (hsize : size = 1 ∨ size = 2 ∨ size = 4) (physAddr : ℕ) :
    ∃ e p m', m.Translate physAddr x size writing = .ok (e,p,m') ∧
      (e = .noException ↔ ∃ i frame, Grants m.translation x size writing i frame) ∧
      (∀ i frame, Grants m.translation x size writing i frame →
        Granted m m' x size writing i frame p) ∧
      (e ≠ .noException → p = physAddr ∧ m' = m) := by
  rcases @translate_cases m x size writing hset hsize physAddr with
    ⟨e,hne,htranslate,hnone⟩ | ⟨i,frame,hgrants,htranslate⟩
  · refine ⟨e,physAddr,m,htranslate,⟨fun h => absurd h hne,?_⟩,
      fun i frame h => absurd h (hnone i frame),fun _ => ⟨rfl,rfl⟩⟩
    rintro ⟨i,frame,h⟩
    exact absurd h (hnone i frame)
  · refine ⟨_,_,_,htranslate,⟨fun _ => ⟨i,frame,hgrants⟩,fun _ => rfl⟩,?_,fun h => absurd rfl h⟩
    intro j frame' hgrants'
    obtain ⟨rfl,rfl⟩ := hgrants.unique hgrants'
    have hinside := page_fits hsize hgrants.aligned
    refine ⟨rfl,⟨Nat.le_add_right _ _,?_⟩,rfl⟩
    rw [Nat.add_mul]
    omega

/-- A TLB whose second entry maps page 3 to frame 2. -/
def exampleTlb : Machine where
  registers := fun _ => 0#32
  mainMemory := fun _ => 0#8
  translation := .tlb fun i => ⟨3#32,2#32,i = 1,false,false,false⟩

/-- A word is written at offset 4 of page 3. -/
theorem translate_exact_tlb :
    ∃ m', exampleTlb.Translate 0 388#32 4 true = .ok (.noException,260,m') := by
  obtain ⟨e,p,m',htranslate,hiff,hall,_⟩ :=
    @translate_exact exampleTlb 388#32 4 true rfl (by decide) 0
  have hgrants : Grants exampleTlb.translation 388#32 4 true 1 2 := by
    refine ⟨by decide,⟨by decide,⟨rfl,by decide⟩,fun j hj h => ?_⟩,rfl,by decide,by decide⟩
    obtain rfl : j = 0 := by omega
    exact absurd h.1 (by decide)
  rw [hiff.mpr ⟨1,2,hgrants⟩,(hall 1 2 hgrants).address] at htranslate
  exact ⟨m',htranslate⟩

end

end Hardware.Machine

/-! The kernel's own translation. -/

namespace AddrSpace

/-- `pfn` is an `int`, and `*paddr` is unsigned. -/
def Translate (s : AddrSpace) (paddr vaddr : BitVec 32) (isReadWrite : Bool) :
    Except Fault (ExceptionType × BitVec 32 × AddrSpace) :=
  let vpn := vaddr.toNat / PageSize
  if vpn ≥ s.numPages then return (.addressErrorException,paddr,s)
  else
    let pte := s.pageTable vpn
    if isReadWrite = true ∧ pte.readOnly = true then return (.readOnlyException,paddr,s)
    else
      let pfn := pte.physicalPage
      if pfn.toInt ≥ (NumPhysPages : ℕ) then return (.busErrorException,paddr,s)
      else do
        let used := Function.update s.pageTable vpn { pte with use := true }
        let marked := if isReadWrite then
          Function.update used vpn { used vpn with dirty := true } else used
        let paddr := pfn * BitVec.ofNat 32 PageSize + BitVec.ofNat 32 (vaddr.toNat % PageSize)
        check (paddr.toNat < MemorySize)
        return (.noException,paddr,{ s with pageTable := marked })

variable {s : AddrSpace} {m : Machine} {x : BitVec 32} {writing : Bool}

/-- The processor's translation of a byte with the table of `s`. -/
theorem translate_RestoreState (physAddr : ℕ) :
    (s.RestoreState m).Translate physAddr x 1 writing =
      if x.toNat / PageSize ≥ s.numPages then .ok (.addressErrorException,physAddr,s.RestoreState m)
      else if (s.pageTable (x.toNat / PageSize)).valid = false then
        .ok (.pageFaultException,physAddr,s.RestoreState m)
      else if (s.pageTable (x.toNat / PageSize)).readOnly = true ∧ writing = true then
        .ok (.readOnlyException,physAddr,s.RestoreState m)
      else if (s.pageTable (x.toNat / PageSize)).physicalPage.toNat ≥ NumPhysPages then
        .ok (.busErrorException,physAddr,s.RestoreState m)
      else .ok (.noException,(s.pageTable (x.toNat / PageSize)).physicalPage.toNat * PageSize +
        x.toNat % PageSize,{ s.RestoreState m with
          translation := (s.RestoreState m).translation.touch (x.toNat / PageSize) writing }) := by
  have hset : (s.RestoreState m).translation.isSet = true := rfl
  have hentries : (s.RestoreState m).translation.entries = s.pageTable := rfl
  have hindex : (s.RestoreState m).translation.index (x.toNat / PageSize) =
      if x.toNat / PageSize ≥ s.numPages then .error .addressErrorException
      else if (s.pageTable (x.toNat / PageSize)).valid = false then .error .pageFaultException
      else .ok (x.toNat / PageSize) := rfl
  unfold Machine.Translate
  rw [if_neg (by omega),check_of hset]
  simp only [Translation.physical,hindex,hentries,bind,Except.bind]
  by_cases hvpn : x.toNat / PageSize ≥ s.numPages
  · simp only [if_pos hvpn]
    rfl
  · by_cases hvalid : (s.pageTable (x.toNat / PageSize)).valid = false
    · simp only [if_neg hvpn,if_pos hvalid]
      rfl
    · by_cases hreadOnly : (s.pageTable (x.toNat / PageSize)).readOnly = true ∧ writing = true
      · simp only [if_neg hvpn,if_neg hvalid,if_pos hreadOnly]
        rfl
      · by_cases hframe : (s.pageTable (x.toNat / PageSize)).physicalPage.toNat ≥ NumPhysPages
        · simp only [if_neg hvpn,if_neg hvalid,if_neg hreadOnly,if_pos hframe]
          rfl
        · have hfits := Machine.frame_fits (x := x) (Or.inl rfl) (Nat.mod_one _)
            (Nat.lt_of_not_le hframe)
          simp only [if_neg hvpn,if_neg hvalid,if_neg hreadOnly,if_neg hframe,pure,Except.pure,
            check_of hfits]

/-- The table after an access, in the form that `Translate` gives it. -/
theorem marked_eq_touch (vpn : ℕ) :
    (⟨if writing = true then Function.update (Function.update s.pageTable vpn
        { s.pageTable vpn with use := true }) vpn
        { Function.update s.pageTable vpn { s.pageTable vpn with use := true } vpn with
          dirty := true }
      else Function.update s.pageTable vpn { s.pageTable vpn with use := true },s.numPages⟩ :
      AddrSpace).RestoreState m =
    { s.RestoreState m with translation := (s.RestoreState m).translation.touch vpn writing } := by
  cases writing <;> simp [RestoreState,Translation.touch,Translation.setEntry,Translation.entries]

/-- The kernel does not look at the valid bit. -/
theorem Translate_ne_pageFault {paddr q : BitVec 32} {e : ExceptionType} {s' : AddrSpace}
    (h : s.Translate paddr x writing = .ok (e,q,s')) : e ≠ .pageFaultException := by
  rintro rfl
  unfold Translate at h
  simp only at h
  split_ifs at h
  · cases h
  · cases h
  · cases h
  · obtain ⟨_,h⟩ := check_bind_ok.mp h
    cases h
  · obtain ⟨_,h⟩ := check_bind_ok.mp h
    cases h

theorem Translate_readOnly (paddr : BitVec 32) (hvpn : x.toNat / PageSize < s.numPages)
    (hreadOnly : (s.pageTable (x.toNat / PageSize)).readOnly = true ∧ writing = true) :
    s.Translate paddr x writing = .ok (.readOnlyException,paddr,s) := by
  unfold Translate
  rw [if_neg (Nat.not_le.mpr hvpn),if_pos hreadOnly.symm]
  rfl

/-- A frame number beyond main memory is refused if it is not negative. -/
theorem Translate_busError (paddr : BitVec 32) (hvpn : x.toNat / PageSize < s.numPages)
    (hallowed : ¬ ((s.pageTable (x.toNat / PageSize)).readOnly = true ∧ writing = true))
    (hframe : (s.pageTable (x.toNat / PageSize)).physicalPage.toNat ≥ NumPhysPages)
    (hpos : 0 ≤ (s.pageTable (x.toNat / PageSize)).physicalPage.toInt) :
    s.Translate paddr x writing = .ok (.busErrorException,paddr,s) := by
  have hcond := BitVec.toInt_eq_toNat_cond (s.pageTable (x.toNat / PageSize)).physicalPage
  have hbeyond : (s.pageTable (x.toNat / PageSize)).physicalPage.toInt ≥ (NumPhysPages : ℕ) := by
    simp only [NumPhysPages] at hframe ⊢
    split_ifs at hcond <;> omega
  unfold Translate
  rw [if_neg (Nat.not_le.mpr hvpn),if_neg fun h => hallowed h.symm,if_pos hbeyond]
  rfl

/-- A negative frame number is less than the number of frames. -/
theorem Translate_negative {paddr q : BitVec 32} {e : ExceptionType} {s' : AddrSpace}
    (hvpn : x.toNat / PageSize < s.numPages)
    (hallowed : ¬ ((s.pageTable (x.toNat / PageSize)).readOnly = true ∧ writing = true))
    (hframe : (s.pageTable (x.toNat / PageSize)).physicalPage.toInt < 0)
    (h : s.Translate paddr x writing = .ok (e,q,s')) : e = .noException := by
  unfold Translate at h
  simp only [and_comm (a := writing = true)] at h
  rw [if_neg (Nat.not_le.mpr hvpn),if_neg hallowed,if_neg (by omega)] at h
  obtain ⟨_,h⟩ := check_bind_ok.mp h
  cases h
  rfl

theorem toInt_of_frame {pfn : BitVec 32} (h : pfn.toNat < NumPhysPages) :
    pfn.toInt = pfn.toNat := by
  have hcond := BitVec.toInt_eq_toNat_cond pfn
  simp only [NumPhysPages] at h
  rw [hcond,if_pos (by omega)]

theorem frame_address {pfn : BitVec 32} (h : pfn.toNat < NumPhysPages) (n : ℕ) :
    (pfn * BitVec.ofNat 32 PageSize + BitVec.ofNat 32 (n % PageSize)).toNat =
      pfn.toNat * PageSize + n % PageSize := by
  simp only [NumPhysPages] at h
  simp only [PageSize,BitVec.toNat_add,BitVec.toNat_mul,BitVec.toNat_ofNat]
  omega

/-- The kernel's translation with a frame of main memory. -/
theorem Translate_frame (paddr : BitVec 32) (hvpn : x.toNat / PageSize < s.numPages)
    (hallowed : ¬ ((s.pageTable (x.toNat / PageSize)).readOnly = true ∧ writing = true))
    (hframe : (s.pageTable (x.toNat / PageSize)).physicalPage.toNat < NumPhysPages) :
    ∃ q s', s.Translate paddr x writing = .ok (.noException,q,s') ∧
      q.toNat = (s.pageTable (x.toNat / PageSize)).physicalPage.toNat * PageSize +
        x.toNat % PageSize ∧
      ∀ m, s'.RestoreState m = { s.RestoreState m with
        translation := (s.RestoreState m).translation.touch (x.toNat / PageSize) writing } := by
  have haddr := frame_address hframe x.toNat
  have hfits := Machine.frame_fits (x := x) (Or.inl rfl) (Nat.mod_one _) hframe
  have hsigned := toInt_of_frame hframe
  unfold Translate
  simp only [and_comm (a := writing = true)]
  rw [if_neg (Nat.not_le.mpr hvpn),if_neg hallowed,if_neg (by omega)]
  refine ⟨_,_,check_bind_ok.mpr ⟨?_,rfl⟩,haddr,fun m => marked_eq_touch _⟩
  rw [haddr]
  exact hfits

/-- The two translations agree just if the page is out of range, or it is valid and the access
is refused as a write, or its frame number is not negative. -/
theorem translations_agree_iff (paddr : BitVec 32) (physAddr : ℕ) :
    (∃ e q s' p, s.Translate paddr x writing = .ok (e,q,s') ∧
      (s.RestoreState m).Translate physAddr x 1 writing = .ok (e,p,s'.RestoreState m) ∧
      (e = .noException → q.toNat = p)) ↔
    x.toNat / PageSize ≥ s.numPages ∨
      (s.pageTable (x.toNat / PageSize)).valid = true ∧
        ((s.pageTable (x.toNat / PageSize)).readOnly = true ∧ writing = true ∨
          0 ≤ (s.pageTable (x.toNat / PageSize)).physicalPage.toInt) := by
  rw [translate_RestoreState]
  by_cases hvpn : x.toNat / PageSize ≥ s.numPages
  · refine ⟨fun _ => Or.inl hvpn,fun _ => ?_⟩
    refine ⟨_,_,_,_,if_pos hvpn,if_pos hvpn,fun h => ?_⟩
    cases h
  · rw [if_neg hvpn]
    have hlt := Nat.lt_of_not_le hvpn
    simp only [hvpn,false_or]
    by_cases hvalid : (s.pageTable (x.toNat / PageSize)).valid = false
    · rw [if_pos hvalid,hvalid]
      simp only [Bool.false_eq_true,false_and,iff_false]
      rintro ⟨e,q,s',p,hkernel,hmachine,_⟩
      obtain ⟨rfl,_⟩ := Prod.mk.inj (Except.ok.inj hmachine)
      exact Translate_ne_pageFault hkernel rfl
    · rw [if_neg hvalid]
      have hvalid : (s.pageTable (x.toNat / PageSize)).valid = true := by simpa using hvalid
      simp only [hvalid,true_and]
      by_cases hreadOnly : (s.pageTable (x.toNat / PageSize)).readOnly = true ∧ writing = true
      · rw [if_pos hreadOnly]
        refine ⟨fun _ => Or.inl hreadOnly,fun _ => ?_⟩
        refine ⟨_,paddr,s,physAddr,Translate_readOnly paddr hlt hreadOnly,rfl,fun h => ?_⟩
        cases h
      · rw [if_neg hreadOnly]
        simp only [hreadOnly,false_or]
        by_cases hframe : (s.pageTable (x.toNat / PageSize)).physicalPage.toNat ≥ NumPhysPages
        · rw [if_pos hframe]
          constructor
          · rintro ⟨e,q,s',p,hkernel,hmachine,_⟩
            by_contra hneg
            obtain ⟨rfl,_⟩ := Prod.mk.inj (Except.ok.inj hmachine)
            cases Translate_negative hlt hreadOnly (lt_of_not_ge hneg) hkernel
          · intro hpos
            refine ⟨_,paddr,s,physAddr,Translate_busError paddr hlt hreadOnly hframe hpos,rfl,
              fun h => ?_⟩
            cases h
        · rw [if_neg hframe]
          obtain ⟨q,s',hkernel,hq,hs'⟩ := Translate_frame paddr hlt hreadOnly
            (Nat.lt_of_not_le hframe)
          refine ⟨fun _ => ?_,fun _ => ⟨_,q,s',_,hkernel,?_,fun _ => hq⟩⟩
          · rw [toInt_of_frame (Nat.lt_of_not_le hframe)]
            exact Int.natCast_nonneg _
          · rw [hs']

/-- An address space of one page. -/
def onePage (pfn : BitVec 32) (valid : Bool) : AddrSpace :=
  ⟨fun _ => ⟨0#32,pfn,valid,false,false,false⟩,1⟩

/-- A page that is not valid, and one whose frame number is -1: the processor refuses both, the
kernel translates the first and fails its assertion on the second. -/
theorem kernel_translation_differs :
    (∃ s', (onePage 5#32 false).Translate 0#32 4#32 false = .ok (.noException,644#32,s')) ∧
    (∃ m', ((onePage 5#32 false).RestoreState Machine.exampleTlb).Translate 0 4#32 1 false =
      .ok (.pageFaultException,0,m')) ∧
    (onePage (-1#32) true).Translate 0#32 4#32 false = .error .assertion ∧
    ∃ m', ((onePage (-1#32) true).RestoreState Machine.exampleTlb).Translate 0 4#32 1 false =
      .ok (.busErrorException,0,m') :=
  ⟨⟨_,rfl⟩,⟨_,rfl⟩,rfl,⟨_,rfl⟩⟩

end AddrSpace
end NachOS
