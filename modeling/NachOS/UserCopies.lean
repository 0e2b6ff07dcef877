import NachOS.StringCalls

/-! The copies between user memory and the kernel, one after the other (userprog/ksyscall.h):
what is copied out and in again is the same, and no other memory is touched. -/
namespace NachOS

open StateMachine hiding Machine
open Memory Hardware

namespace Translation

/-- Distinct virtual pages are mapped to distinct frames. -/
def DistinctFrames (t : Translation) : Prop :=
  ∀ v w i j, t.index v = .ok i → t.index w = .ok j →
    (t.entries i).physicalPage = (t.entries j).physicalPage → v = w

/-- The page of a mapped address has an entry, whose frame holds the physical address. -/
theorem address_eq_some {t : Translation} {x : BitVec 32} {p : ℕ} (h : t.address x = some p) :
    ∃ i, t.index (x.toNat / PageSize) = .ok i ∧
      p = (t.entries i).physicalPage.toNat * PageSize + x.toNat % PageSize := by
  unfold address at h
  split at h
  · next i q hq =>
    cases h
    obtain ⟨j,hindex,hq⟩ := bind_ok.mp hq
    simp only at hq
    split at hq
    · cases hq
    · split at hq
      · cases hq
      · cases hq
        exact ⟨_,hindex,rfl⟩
  · cases h

theorem DistinctFrames.apart {t : Translation} (ht : t.DistinctFrames) : t.Apart := by
  intro x y p hx hy
  obtain ⟨i,hi,hp⟩ := address_eq_some hx
  obtain ⟨j,hj,hq⟩ := address_eq_some hy
  have hoffset : x.toNat % PageSize < PageSize := Nat.mod_lt _ (by decide)
  have hoffset' : y.toNat % PageSize < PageSize := Nat.mod_lt _ (by decide)
  have hframe : (t.entries i).physicalPage = (t.entries j).physicalPage := by
    apply BitVec.eq_of_toNat_eq
    simp only [PageSize] at *
    omega
  have hpage := ht _ _ i j hi hj hframe
  rw [hframe] at hp
  apply BitVec.eq_of_toNat_eq
  simp only [PageSize] at *
  omega

end Translation

namespace Kernel

variable {k : Kernel} {x : BitVec 32} {n : ℕ}

theorem User2SystemReads_of_user {b : Buffer} (keepNULL : Bool) (hn : n + 1 < 2 ^ 31)
    (h : ∀ j, j < copied b keepNULL 0 n → k.machine.user (x + BitVec.ofNat 32 j) = some (b j)) :
    ∃ k', k.User2SystemReads x.toInt n keepNULL = .ok (addresses x 0 (copied b keepNULL 0 n),
      patch (fun _ => 0#8) b 0 (copied b keepNULL 0 n),k') := by
  have hwrap : wrap ((n : ℤ) + 1) = n + 1 := wrap_of_range (by omega) (by omega)
  have hbytes : ∀ j, 0 ≤ j → j < 0 + copied b keepNULL 0 n →
      k.machine.user (x + BitVec.ofNat 32 j) = some (b j) :=
    fun j _ hj => h j (by rwa [Nat.zero_add] at hj)
  obtain ⟨k',hrun,_⟩ := copyInReads_of_user (fun _ => 0#8) hbytes
  refine ⟨k',?_⟩
  unfold User2SystemReads
  rw [hwrap,inBounds_of (by omega),Int.toNat_natCast]
  exact hrun

theorem System2User_copies (b : Buffer) (keepNULL : Bool)
    (hapart : k.machine.translation.Apart) (hn : n ≤ 2 ^ 32)
    (hwritable : ∀ j < n, k.machine.translation.Writable (x + BitVec.ofNat 32 j)) :
    ∃ k', k.System2User x.toInt n b keepNULL = .ok ((copied b keepNULL 0 n : ℕ),k') ∧
      Sees k k' (overlay k.machine.user x b 0 (copied b keepNULL 0 n)) ∧
      ∀ p, (∀ j < copied b keepNULL 0 n,
          k.machine.translation.address (x + BitVec.ofNat 32 j) ≠ some p) →
        k'.machine.mainMemory p = k.machine.mainMemory p := by
  rw [System2User_natCast]
  obtain ⟨⟨count,k'⟩,hrun⟩ := @copyOut_of_writable k x b keepNULL 0 n
    fun j _ hj => hwritable j (by omega)
  obtain ⟨hcount,hsees⟩ := copyOut_sees hapart (by omega) hrun
  refine ⟨k',?_,hsees,fun p hp => copyOut_memory hrun fun j _ hj => hp j (by omega)⟩
  rw [hrun,hcount,Nat.cast_zero,zero_add]

/-- Under a mapping of distinct pages to distinct frames, `count` bytes are copied out to
`n` writable addresses: all of them with `keepNULL`, and otherwise those up to the first zero
byte.  Nothing else in main memory changes.  The copy back in reads the same addresses, and
its buffer has those bytes followed by zeros. -/
theorem copies_inverse (k : Kernel) (x : BitVec 32) (n : ℕ) (b : Buffer) (keepNULL : Bool)
    (hframes : k.machine.translation.DistinctFrames) (hn : n < 2 ^ 31)
    (hwritable : ∀ j < n, k.machine.translation.Writable (x + BitVec.ofNat 32 j)) :
    ∃ count k₁ c k₂,
      (keepNULL = true → count = n) ∧
      (keepNULL = false → ∀ j, j < count ↔ j < n ∧ ∀ l < j, b l ≠ 0#8) ∧
      k.System2User x.toInt n b keepNULL = .ok ((count : ℕ),k₁) ∧
      (∀ j < count, k₁.machine.user (x + BitVec.ofNat 32 j) = some (b j)) ∧
      (∀ p, (∀ j < count, k.machine.translation.address (x + BitVec.ofNat 32 j) ≠ some p) →
        k₁.machine.mainMemory p = k.machine.mainMemory p) ∧
      k₁.User2System x.toInt n keepNULL = .ok (c,k₂) ∧
      k₁.User2SystemReads x.toInt n keepNULL = .ok (addresses x 0 count,c,k₂) ∧
      ∀ j, c j = if j < count then b j else 0#8 := by
  have hapart := hframes.apart
  have hle := copied_le b keepNULL 0 n
  have hsize : n ≤ MemorySize := hapart.length_le (by omega) fun j hj => by
    obtain ⟨i,p,hp⟩ := hwritable j hj
    exact ⟨p,Translation.address_of_physical hp⟩
  obtain ⟨k₁,hout,hsees,hmemory⟩ := System2User_copies b keepNULL hapart (by omega) hwritable
  have huser : ∀ j < copied b keepNULL 0 n,
      k₁.machine.user (x + BitVec.ofNat 32 j) = some (b j) := by
    intro j hj
    rw [hsees.user,overlay_add_ofNat _ _ _ (by omega),if_pos (by omega)]
  obtain ⟨k₂,hin⟩ := User2SystemReads_of_user keepNULL (by
      simp only [MemorySize,NumPhysPages,PageSize] at hsize
      omega) huser
  refine ⟨copied b keepNULL 0 n,k₁,_,k₂,?_,?_,hout,huser,hmemory,User2System_of_reads hin,hin,
    fun j => ?_⟩
  · rintro rfl
    exact copied_keepNULL b 0 n
  · rintro rfl j
    simpa only [Nat.zero_add] using lt_copied (b := b) (i := 0) (j := j) (n := n)
  · rw [patch]
    simp only [Nat.zero_le,true_and,Nat.zero_add]

/-- Two pages, in frames that are not adjacent. -/
def scatteredKernel : Kernel :=
  { exampleKernel 0 with
    machine := { exampleMachine 0 with
      translation := .pageTable (fun v => ⟨0,if v = 0 then 5 else 2,true,false,false,false⟩) 2 } }

theorem scatteredKernel_distinctFrames :
    scatteredKernel.machine.translation.DistinctFrames := by
  have hindex : ∀ v i, scatteredKernel.machine.translation.index v = .ok i → v < 2 ∧ i = v := by
    intro v i hv
    by_cases hlt : v < 2
    · simp only [scatteredKernel,Translation.index,ge_iff_le,Nat.not_le.mpr hlt,if_false] at hv
      cases hv
      exact ⟨hlt,rfl⟩
    · simp only [scatteredKernel,Translation.index,ge_iff_le,Nat.le_of_not_lt hlt,if_true] at hv
      cases hv
  intro v w i j hv hw he
  obtain ⟨hv,rfl⟩ := hindex v i hv
  obtain ⟨hw,rfl⟩ := hindex w j hw
  interval_cases i <;> interval_cases j <;> first | rfl | exact absurd he (by decide)

/-- Three bytes with a zero in their middle, across the two pages. -/
theorem copies_inverse_scattered : ∃ k₁ c k₂,
    scatteredKernel.System2User 127 3 (ofList [97#8,0#8,98#8]) false = .ok (2,k₁) ∧
    k₁.machine.user 127#32 = some 97#8 ∧ k₁.machine.user 128#32 = some 0#8 ∧
    k₁.User2System 127 3 false = .ok (c,k₂) ∧
    c 0 = 97#8 ∧ ∀ j, 1 ≤ j → c j = 0#8 := by
  have hwritable : ∀ j < 3,
      scatteredKernel.machine.translation.Writable (127#32 + BitVec.ofNat 32 j) := by
    intro j hj
    interval_cases j
    · exact ⟨0,767,rfl⟩
    · exact ⟨1,256,rfl⟩
    · exact ⟨1,257,rfl⟩
  obtain ⟨count,k₁,c,k₂,_,hstop,hout,huser,_,hin,_,hc⟩ := copies_inverse scatteredKernel 127#32 3
    (ofList [97#8,0#8,98#8]) false scatteredKernel_distinctFrames (by decide) hwritable
  have htwo : 1 < count := (hstop rfl 1).mpr ⟨by decide,by decide⟩
  have hnot : ¬ 2 < count := fun h => ((hstop rfl 2).mp h).2 1 (by decide) rfl
  obtain rfl : count = 2 := by omega
  refine ⟨k₁,c,k₂,hout,huser 0 (by decide),huser 1 (by decide),hin,hc 0,fun j hj => ?_⟩
  rw [hc]
  by_cases hone : j = 1
  · subst hone
    rfl
  · exact if_neg (by omega)

end Kernel
end NachOS
