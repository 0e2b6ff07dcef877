import NachOS.Syscall

/-! User memory as the user program sees it through address translation, and the copies
between it and the kernel. -/
namespace NachOS

open StateMachine hiding Machine
open Memory Hardware

namespace Translation

/-- The physical address at which a virtual one is read. -/
def address (t : Translation) (x : BitVec 32) : Option ℕ :=
  match t.physical x false with
  | .ok (_,p) => some p
  | .error _ => none

/-- A virtual address that may be written. -/
def Writable (t : Translation) (x : BitVec 32) : Prop := ∃ i p, t.physical x true = .ok (i,p)

/-- Distinct virtual addresses have distinct physical ones. -/
def Apart (t : Translation) : Prop :=
  ∀ x y p, t.address x = some p → t.address y = some p → x = y

theorem address_congr {t t' : Translation} (h : t'.physical = t.physical) :
    t'.address = t.address := by
  funext x
  simp only [address,h]

theorem Apart.congr {t t' : Translation} (ht : t.Apart) (h : t'.physical = t.physical) :
    t'.Apart := by
  unfold Apart at ht ⊢
  rw [address_congr h]
  exact ht

theorem Writable.congr {t t' : Translation} {x : BitVec 32} (hx : t.Writable x)
    (h : t'.physical = t.physical) : t'.Writable x := by
  unfold Writable at hx ⊢
  rw [h]
  exact hx

/-- What is mapped for writing is mapped to the same place for reading. -/
theorem physical_false {t : Translation} {x : BitVec 32} {i p : ℕ}
    (h : t.physical x true = .ok (i,p)) : t.physical x false = .ok (i,p) := by
  unfold physical at h ⊢
  cases hi : t.index (x.toNat / PageSize) with
  | error e =>
    rw [hi] at h
    cases h
  | ok j =>
    rw [hi] at h
    simp only [bind,Except.bind] at h ⊢
    split at h
    · cases h
    · simpa using h

theorem address_of_physical {t : Translation} {x : BitVec 32} {writing : Bool} {i p : ℕ}
    (h : t.physical x writing = .ok (i,p)) : t.address x = some p := by
  cases writing with
  | false => simp only [address,h]
  | true => simp only [address,physical_false h]

/-- Only a table that is set maps an address, and it maps it into main memory. -/
theorem physical_ok {t : Translation} {x : BitVec 32} {writing : Bool} {i p : ℕ}
    (h : t.physical x writing = .ok (i,p)) : t.isSet = true ∧ p + 1 ≤ MemorySize := by
  unfold physical at h
  cases hi : t.index (x.toNat / PageSize) with
  | error e =>
    rw [hi] at h
    cases h
  | ok j =>
    rw [hi] at h
    simp only [bind,Except.bind] at h
    split at h
    · cases h
    · split at h
      · cases h
      · next hframe =>
        cases h
        have hmod := Nat.mod_lt x.toNat (show 0 < PageSize by decide)
        constructor
        · cases t with
          | unset => cases hi
          | pageTable e size => rfl
          | tlb e => rfl
        · simp only [NumPhysPages,PageSize,MemorySize,ge_iff_le,not_le] at hframe hmod ⊢
          omega

theorem address_lt {t : Translation} {x : BitVec 32} {p : ℕ} (h : t.address x = some p) :
    p < MemorySize := by
  unfold address at h
  split at h
  · next i q hq =>
    cases h
    exact (physical_ok hq).2
  · cases h

/-- A range of mapped addresses is no longer than main memory. -/
theorem Apart.length_le {t : Translation} (ht : t.Apart) {x : BitVec 32} {n : ℕ}
    (hn : n ≤ 2 ^ 32) (h : ∀ j < n, ∃ p, t.address (x + BitVec.ofNat 32 j) = some p) :
    n ≤ MemorySize := by
  let f : ℕ → ℕ := fun j => (t.address (x + BitVec.ofNat 32 j)).getD 0
  have hf : ∀ j < n, t.address (x + BitVec.ofNat 32 j) = some (f j) := by
    intro j hj
    obtain ⟨p,hp⟩ := h j hj
    simp only [f,hp,Option.getD_some]
  have hmaps : ∀ j ∈ Finset.range n, f j ∈ Finset.range MemorySize := by
    intro j hj
    exact Finset.mem_range.mpr (address_lt (hf j (Finset.mem_range.mp hj)))
  have hinj : Set.InjOn f (Finset.range n) := by
    intro j hj l hl he
    have hj := Finset.mem_range.mp hj
    have hl := Finset.mem_range.mp hl
    have heq := ht _ _ _ (hf j hj) (he ▸ hf l hl)
    bv_omega
  have hcard := Finset.card_le_card_of_injOn f hmaps hinj
  rwa [Finset.card_range,Finset.card_range] at hcard

end Translation

namespace Hardware.Machine

/-- The byte that the user program reads at `x`. -/
def user (m : Machine) (x : BitVec 32) : Option Byte :=
  (m.translation.address x).map m.mainMemory

theorem access_of_physical {m : Machine} {x : BitVec 32} {writing : Bool} {i p : ℕ}
    (h : m.translation.physical x writing = .ok (i,p)) :
    m.access x 1 writing =
      .ok (.ok (p,{ m with translation := m.translation.touch i writing })) := by
  obtain ⟨hset,hp⟩ := Translation.physical_ok h
  rw [access_eq]
  rw [if_neg (by omega),check_of hset,h]
  simp only [check_of hp]
  rfl

/-- The byte that is stored. -/
theorem store_byte (b : Buffer) (p : ℕ) (c : Byte) :
    store b p 1 c.toInt = Function.update b p c := by
  funext j
  by_cases hj : j = p
  · subst hj
    have hsign : BitVec.ofInt 32 c.toInt = c.signExtend 32 := rfl
    have hlow : (c.signExtend 32).extractLsb' 0 8 = c := by
      ext l hl
      simp only [BitVec.getElem_extractLsb',BitVec.getLsbD_signExtend,Nat.zero_add,if_pos hl,
        BitVec.getLsbD_eq_getElem hl]
      rw [decide_eq_true (by omega),Bool.true_and]
    simp [store,hsign,hlow]
  · rw [Function.update_of_ne hj,store,if_neg (by omega)]

end Hardware.Machine

namespace Kernel

/-! The view of the user program. -/

theorem ofInt_add_natCast (x : BitVec 32) (j : ℕ) :
    BitVec.ofInt 32 (x.toInt + j) = x + BitVec.ofNat 32 j := by
  rw [BitVec.ofInt_add,BitVec.ofInt_toInt,BitVec.ofInt_natCast]

theorem eq_add_ofNat_iff {x y : BitVec 32} {j : ℕ} (hj : j < 2 ^ 32) :
    y = x + BitVec.ofNat 32 j ↔ (y - x).toNat = j := by
  constructor <;> intro h <;> bv_omega

/-- A view with the bytes `i` to `i + n - 1` of a buffer laid over it, where byte 0 would
stand at `x`. -/
def overlay (view : BitVec 32 → Option Byte) (x : BitVec 32) (b : Buffer) (i n : ℕ)
    (y : BitVec 32) : Option Byte :=
  if i ≤ (y - x).toNat ∧ (y - x).toNat < i + n then some (b (y - x).toNat) else view y

@[simp] theorem overlay_zero (view : BitVec 32 → Option Byte) (x : BitVec 32) (b : Buffer)
    (i : ℕ) : overlay view x b i 0 = view := by
  funext y
  rw [overlay,if_neg (by omega)]

theorem overlay_update (view : BitVec 32 → Option Byte) (x : BitVec 32) (b : Buffer) {i n : ℕ}
    (hi : i < 2 ^ 32) :
    overlay (Function.update view (x + BitVec.ofNat 32 i) (some (b i))) x b (i + 1) n =
      overlay view x b i (n + 1) := by
  funext y
  by_cases hy : (y - x).toNat = i
  · have he := (eq_add_ofNat_iff hi).mpr hy
    rw [overlay,overlay,hy,if_neg (by omega),if_pos (by omega),he,Function.update_self]
  · have hne : y ≠ x + BitVec.ofNat 32 i := fun he => hy ((eq_add_ofNat_iff hi).mp he)
    simp only [overlay,Function.update_of_ne hne]
    congr 1
    apply propext
    omega

theorem overlay_add_ofNat (view : BitVec 32 → Option Byte) (x : BitVec 32) (b : Buffer)
    {i j n : ℕ} (hj : j < 2 ^ 32) : overlay view x b i n (x + BitVec.ofNat 32 j) =
      if i ≤ j ∧ j < i + n then some (b j) else view (x + BitVec.ofNat 32 j) := by
  have hd := (eq_add_ofNat_iff (x := x) (y := x + BitVec.ofNat 32 j) hj).mp rfl
  rw [overlay,hd]

/-- The user program sees `view`, through the same mapping, and the files are the same. -/
structure Sees (k k' : Kernel) (view : BitVec 32 → Option Byte) : Prop where
  user : k'.machine.user = view
  physical : k'.machine.translation.physical = k.machine.translation.physical
  fileSystem : k'.fileSystem = k.fileSystem

theorem Sees.refl (k : Kernel) : Sees k k k.machine.user := ⟨rfl,rfl,rfl⟩

theorem Sees.trans {k₁ k₂ k₃ : Kernel} {view view' : BitVec 32 → Option Byte}
    (h₁ : Sees k₁ k₂ view) (h₂ : Sees k₂ k₃ view') : Sees k₁ k₃ view' :=
  ⟨h₂.user,h₂.physical.trans h₁.physical,h₂.fileSystem.trans h₁.fileSystem⟩

theorem ReadMem_of_user {k : Kernel} {addr : ℤ} {c : Byte}
    (h : k.machine.user (BitVec.ofInt 32 addr) = some c) :
    ∃ k', k.ReadMem addr = .ok (c.toInt,k') ∧ Sees k k' k.machine.user := by
  unfold Machine.user Translation.address at h
  split at h
  · next i p hp =>
    cases h
    have ht := Machine.access_of_physical hp
    refine ⟨{ k with machine := { k.machine with
      translation := k.machine.translation.touch i false } },?_,?_,?_,rfl⟩
    · unfold ReadMem Machine.ReadMem
      rw [ht]
      rfl
    · funext y
      simp only [Machine.user,Translation.address,Translation.physical_touch]
    · exact Translation.physical_touch _ _ _
  · cases h

theorem WriteMem_of_writable {k : Kernel} {addr : ℤ} (value : ℤ)
    (h : k.machine.translation.Writable (BitVec.ofInt 32 addr)) :
    ∃ k', k.WriteMem addr value = .ok k' ∧
      k'.machine.translation.physical = k.machine.translation.physical := by
  obtain ⟨i,p,hp⟩ := h
  have ht := Machine.access_of_physical hp
  unfold WriteMem Machine.WriteMem
  rw [ht]
  exact ⟨_,rfl,Translation.physical_touch _ _ _⟩

/-- A byte that is written goes to the one place that its address is mapped to. -/
theorem WriteMem_memory {k k' : Kernel} {addr : ℤ} {c : Byte}
    (h : k.WriteMem addr c.toInt = .ok k') :
    ∃ i p, k.machine.translation.address (BitVec.ofInt 32 addr) = some p ∧
      k' = { k with machine := { k.machine with
        mainMemory := Function.update k.machine.mainMemory p c
        translation := k.machine.translation.touch i true } } := by
  obtain ⟨r,hr,h⟩ := bind_ok.mp h
  cases r with
  | error e => cases h
  | ok m' =>
    cases h
    obtain ⟨t,ht,hr⟩ := bind_ok.mp hr
    cases t with
    | error e => cases hr
    | ok t =>
      obtain ⟨p,m⟩ := t
      obtain ⟨i,hp,rfl⟩ := Machine.physical_of_access ht
      cases hr
      refine ⟨i,p,Translation.address_of_physical hp,?_⟩
      rw [Machine.store_byte]

theorem WriteMem_sees {k k' : Kernel} {addr : ℤ} {c : Byte}
    (hapart : k.machine.translation.Apart) (h : k.WriteMem addr c.toInt = .ok k') :
    Sees k k' (Function.update k.machine.user (BitVec.ofInt 32 addr) (some c)) := by
  obtain ⟨i,p,hx,rfl⟩ := WriteMem_memory h
  refine ⟨?_,Translation.physical_touch _ _ _,rfl⟩
  funext y
  have haddr : (k.machine.translation.touch i true).address = k.machine.translation.address :=
    Translation.address_congr (Translation.physical_touch _ _ _)
  simp only [Machine.user,haddr]
  by_cases hy : y = BitVec.ofInt 32 addr
  · rw [hy,Function.update_self,hx,Option.map_some,Function.update_self]
  · rw [Function.update_of_ne hy]
    show _ = (k.machine.translation.address y).map k.machine.mainMemory
    cases hq : k.machine.translation.address y with
    | none => rfl
    | some q =>
      have hne : q ≠ p := by
        intro he
        exact hy (hapart _ _ _ hq (he ▸ hx))
      rw [Option.map_some,Option.map_some,Function.update_of_ne hne]

/-! The copies. -/

/-- How many of the `n` bytes from index `i` on a copy moves: without `keepNULL` it stops
after the first NUL. -/
def copied (b : Buffer) (keepNULL : Bool) (i : ℕ) : ℕ → ℕ
  | 0 => 0
  | n + 1 => if b i = 0#8 ∧ keepNULL = false then 1 else copied b keepNULL (i + 1) n + 1

theorem copied_le (b : Buffer) (keepNULL : Bool) (i n : ℕ) : copied b keepNULL i n ≤ n := by
  induction n generalizing i with
  | zero => exact Nat.le_refl 0
  | succ n ih =>
    have hi := ih (i + 1)
    unfold copied
    split <;> omega

theorem copied_pos (b : Buffer) (keepNULL : Bool) (i n : ℕ) :
    0 < copied b keepNULL i (n + 1) := by
  unfold copied
  split <;> omega

theorem copied_keepNULL (b : Buffer) (i n : ℕ) : copied b true i n = n := by
  induction n generalizing i with
  | zero => rfl
  | succ n ih => simp [copied,ih]

theorem lt_copied {b : Buffer} {i j n : ℕ} :
    j < copied b false i n ↔ j < n ∧ ∀ l < j, b (i + l) ≠ 0#8 := by
  induction n generalizing i j with
  | zero => simp [copied]
  | succ n ih =>
    cases j with
    | zero => simp [copied_pos]
    | succ j =>
      unfold copied
      by_cases hb : b i = 0#8
      · simp only [hb,and_self,if_true]
        constructor
        · intro h
          omega
        · rintro ⟨_,h⟩
          exact absurd hb (h 0 (by omega))
      · simp only [hb,false_and,if_false,Nat.add_lt_add_iff_right,ih]
        refine and_congr_right fun _ => ?_
        constructor
        · intro h l hl
          cases l with
          | zero => exact hb
          | succ l =>
            have hnext := h l (by omega)
            rwa [Nat.add_right_comm] at hnext
        · intro h l hl
          have hnext := h (l + 1) (by omega)
          rwa [Nat.add_right_comm]

theorem toInt_eq_zero {c : Byte} : c.toInt = 0 ↔ c = 0#8 := by
  rw [← BitVec.toInt_inj,BitVec.toInt_zero]

/-- The test of `System2User`, which goes on where the other copy does not stop. -/
theorem goes_on_iff {c : Byte} {keepNULL : Bool} :
    c.toInt ≠ 0 ∨ keepNULL = true ↔ ¬ (c = 0#8 ∧ keepNULL = false) := by
  rw [not_and_or,Bool.not_eq_false,ne_eq,toInt_eq_zero]

/-- A buffer with bytes `i` to `i + n - 1` of another one. -/
def patch (buffer b : Buffer) (i n : ℕ) (j : ℕ) : Byte :=
  if i ≤ j ∧ j < i + n then b j else buffer j

theorem patch_zero (buffer b : Buffer) (i : ℕ) : patch buffer b i 0 = buffer := by
  funext j
  rw [patch,if_neg (by omega)]

theorem patch_update (buffer b : Buffer) (i n : ℕ) :
    patch (Function.update buffer i (b i)) b (i + 1) n = patch buffer b i (n + 1) := by
  funext j
  by_cases hj : j = i
  · rw [patch,patch,if_neg (by omega),if_pos (by omega),hj,Function.update_self]
  · simp only [patch,Function.update_of_ne hj]
    congr 1
    apply propext
    omega

/-- The addresses from `x + i` to `x + i + n - 1`. -/
def addresses (x : BitVec 32) (i n : ℕ) : List (BitVec 32) :=
  (List.range' i n).map fun j : ℕ => x + BitVec.ofNat 32 j

/-- The loop of `User2System` with the addresses that it reads, the first one first. -/
def copyInReads (k : Kernel) (virtualAddress : ℤ) (keepNULL : Bool) (kernelBuffer : Buffer)
    (i : ℕ) : ℕ → Except Fault (List (BitVec 32) × Buffer × Kernel)
  | 0 => return ([],kernelBuffer,k)
  | n + 1 => do
    let addr := virtualAddress + i
    let (oneChar,k) ← k.ReadMem addr
    let kernelBuffer := Function.update kernelBuffer i (BitVec.ofInt 8 oneChar)
    if oneChar = 0 ∧ keepNULL = false then return ([BitVec.ofInt 32 addr],kernelBuffer,k)
    else
      let (reads,r) ← copyInReads k virtualAddress keepNULL kernelBuffer (i + 1) n
      return (BitVec.ofInt 32 addr :: reads,r)

theorem copyIn_of_reads {k k' : Kernel} {virtualAddress : ℤ} {keepNULL : Bool}
    {buffer b : Buffer} {i n : ℕ} {reads : List (BitVec 32)}
    (h : k.copyInReads virtualAddress keepNULL buffer i n = .ok (reads,b,k')) :
    k.copyIn virtualAddress keepNULL buffer i n = .ok (b,k') := by
  induction n generalizing k buffer i reads with
  | zero =>
    cases h
    rfl
  | succ n ih =>
    obtain ⟨⟨oneChar,k₁⟩,hread,h⟩ := bind_ok.mp h
    refine bind_ok.mpr ⟨_,hread,?_⟩
    dsimp only at h ⊢
    split at h
    · next hstop =>
      cases h
      exact if_pos hstop
    · next hgo =>
      obtain ⟨⟨rest,r⟩,hrest,h⟩ := bind_ok.mp h
      cases h
      rw [if_neg hgo]
      exact ih hrest

theorem copyInReads_of_user {k : Kernel} {x : BitVec 32} {b : Buffer} (buffer : Buffer)
    {keepNULL : Bool} {i n : ℕ} (h : ∀ j, i ≤ j → j < i + copied b keepNULL i n →
      k.machine.user (x + BitVec.ofNat 32 j) = some (b j)) :
    ∃ k', k.copyInReads x.toInt keepNULL buffer i n = .ok (addresses x i (copied b keepNULL i n),
        patch buffer b i (copied b keepNULL i n),k') ∧ Sees k k' k.machine.user := by
  induction n generalizing k buffer i with
  | zero => exact ⟨k,by rw [copied,patch_zero]; rfl,Sees.refl k⟩
  | succ n ih =>
    have hfirst := h i (Nat.le_refl i) (Nat.lt_add_of_pos_right (copied_pos b keepNULL i n))
    rw [← ofInt_add_natCast] at hfirst
    obtain ⟨k₁,hread,hsees⟩ := ReadMem_of_user hfirst
    unfold copied at h ⊢
    by_cases hstop : b i = 0#8 ∧ keepNULL = false
    · have htest : (b i).toInt = 0 ∧ keepNULL = false := ⟨toInt_eq_zero.mpr hstop.1,hstop.2⟩
      refine ⟨k₁,bind_ok.mpr ⟨_,hread,?_⟩,hsees⟩
      rw [if_pos hstop,← patch_update,patch_zero]
      simp only [if_pos htest,BitVec.ofInt_toInt,ofInt_add_natCast]
      rfl
    · have htest : ¬ ((b i).toInt = 0 ∧ keepNULL = false) :=
        fun ht => hstop ⟨toInt_eq_zero.mp ht.1,ht.2⟩
      rw [if_neg hstop] at h ⊢
      have hrest : ∀ j, i + 1 ≤ j → j < i + 1 + copied b keepNULL (i + 1) n →
          k₁.machine.user (x + BitVec.ofNat 32 j) = some (b j) := by
        intro j h₁ h₂
        rw [hsees.user]
        exact h j (by omega) (by omega)
      obtain ⟨k',hrun,hsees'⟩ := ih (Function.update buffer i (b i)) hrest
      refine ⟨k',bind_ok.mpr ⟨_,hread,?_⟩,?_⟩
      · simp only [if_neg htest,BitVec.ofInt_toInt,ofInt_add_natCast]
        rw [hrun,patch_update]
        rfl
      · have ht := hsees.trans hsees'
        rwa [hsees.user] at ht

theorem copyIn_of_user {k : Kernel} {x : BitVec 32} {b : Buffer} (buffer : Buffer)
    {keepNULL : Bool} {i n : ℕ} (h : ∀ j, i ≤ j → j < i + copied b keepNULL i n →
      k.machine.user (x + BitVec.ofNat 32 j) = some (b j)) :
    ∃ k', k.copyIn x.toInt keepNULL buffer i n =
        .ok (patch buffer b i (copied b keepNULL i n),k') ∧ Sees k k' k.machine.user := by
  obtain ⟨k',hrun,hsees⟩ := copyInReads_of_user buffer h
  exact ⟨k',copyIn_of_reads hrun,hsees⟩

theorem copyOut_sees {k k' : Kernel} {x : BitVec 32} {b : Buffer} {keepNULL : Bool} {i n : ℕ}
    {count : ℤ} (hapart : k.machine.translation.Apart) (hn : i + n ≤ 2 ^ 32)
    (h : k.copyOut x.toInt b keepNULL i n = .ok (count,k')) :
    count = i + copied b keepNULL i n ∧
      Sees k k' (overlay k.machine.user x b i (copied b keepNULL i n)) := by
  induction n generalizing k i with
  | zero =>
    cases h
    simp only [copied,overlay_zero]
    exact ⟨by simp,Sees.refl _⟩
  | succ n ih =>
    obtain ⟨k₁,hwrite,h⟩ := bind_ok.mp h
    have hsees := WriteMem_sees hapart hwrite
    rw [ofInt_add_natCast] at hsees
    unfold copied
    by_cases hstop : b i = 0#8 ∧ keepNULL = false
    · rw [if_neg fun hgo => goes_on_iff.mp hgo hstop] at h
      cases h
      rw [if_pos hstop]
      refine ⟨by simp,?_⟩
      rw [← overlay_update k.machine.user x b (by omega : i < 2 ^ 32),overlay_zero]
      exact hsees
    · rw [if_pos (goes_on_iff.mpr hstop)] at h
      rw [if_neg hstop]
      obtain ⟨hcount,hsees'⟩ := ih (hapart.congr hsees.physical) (by omega) h
      refine ⟨by push_cast at hcount ⊢; omega,?_⟩
      have ht := hsees.trans hsees'
      rwa [hsees.user,overlay_update k.machine.user x b (by omega : i < 2 ^ 32)] at ht

/-- No byte of main memory changes but those that the copied addresses are mapped to. -/
theorem copyOut_memory {k k' : Kernel} {x : BitVec 32} {b : Buffer} {keepNULL : Bool} {i n : ℕ}
    {count : ℤ} (h : k.copyOut x.toInt b keepNULL i n = .ok (count,k')) {p : ℕ}
    (hp : ∀ j, i ≤ j → j < i + copied b keepNULL i n →
      k.machine.translation.address (x + BitVec.ofNat 32 j) ≠ some p) :
    k'.machine.mainMemory p = k.machine.mainMemory p := by
  induction n generalizing k i with
  | zero =>
    cases h
    rfl
  | succ n ih =>
    obtain ⟨k₁,hwrite,h⟩ := bind_ok.mp h
    obtain ⟨l,q,hq,rfl⟩ := WriteMem_memory hwrite
    rw [ofInt_add_natCast] at hq
    have hpq : p ≠ q := by
      rintro rfl
      exact hp i (Nat.le_refl i) (Nat.lt_add_of_pos_right (copied_pos b keepNULL i n)) hq
    unfold copied at hp
    by_cases hstop : b i = 0#8 ∧ keepNULL = false
    · rw [if_neg fun hgo => goes_on_iff.mp hgo hstop] at h
      cases h
      exact Function.update_of_ne hpq _ _
    · rw [if_pos (goes_on_iff.mpr hstop)] at h
      rw [if_neg hstop] at hp
      have hrest := ih h fun j h₁ h₂ => by
        rw [Translation.address_congr (Translation.physical_touch _ _ _)]
        exact hp j (by omega) (by omega)
      exact hrest.trans (Function.update_of_ne hpq _ _)

theorem copyOut_of_writable {k : Kernel} {x : BitVec 32} {b : Buffer} {keepNULL : Bool}
    {i n : ℕ} (h : ∀ j, i ≤ j → j < i + n →
      k.machine.translation.Writable (x + BitVec.ofNat 32 j)) :
    ∃ r, k.copyOut x.toInt b keepNULL i n = .ok r := by
  induction n generalizing k i with
  | zero => exact ⟨_,rfl⟩
  | succ n ih =>
    have hfirst := h i (Nat.le_refl i) (by omega)
    rw [← ofInt_add_natCast] at hfirst
    obtain ⟨k₁,hwrite,hphys⟩ := WriteMem_of_writable (b i).toInt hfirst
    by_cases htest : (b i).toInt ≠ 0 ∨ keepNULL = true
    · obtain ⟨r,hr⟩ := ih (k := k₁) (i := i + 1) fun j h₁ h₂ =>
        (h j (by omega) (by omega)).congr hphys
      refine ⟨r,bind_ok.mpr ⟨k₁,hwrite,?_⟩⟩
      rw [if_pos htest]
      exact hr
    · refine ⟨((i : ℤ) + 1,k₁),bind_ok.mpr ⟨k₁,hwrite,?_⟩⟩
      rw [if_neg htest]
      rfl

theorem User2System_of_user {k : Kernel} {x : BitVec 32} {b : Buffer} (keepNULL : Bool) {n : ℕ}
    (hn : n + 1 < 2 ^ 31) (h : ∀ j, j < copied b keepNULL 0 n →
      k.machine.user (x + BitVec.ofNat 32 j) = some (b j)) :
    ∃ k', k.User2System x.toInt n keepNULL =
        .ok (patch (fun _ => 0#8) b 0 (copied b keepNULL 0 n),k') ∧
      Sees k k' k.machine.user := by
  have hwrap : wrap ((n : ℤ) + 1) = n + 1 := wrap_of_range (by omega) (by omega)
  obtain ⟨k',hrun,hsees⟩ := copyIn_of_user (k := k) (x := x) (b := b) (fun _ => 0#8) (i := 0)
    (n := n) (fun j _ hj => h j (by rwa [Nat.zero_add] at hj))
  refine ⟨k',?_,hsees⟩
  unfold User2System
  rw [hwrap,inBounds_of (by omega),Int.toNat_natCast]
  exact hrun

/-- The cases that `System2User` treats first are those of its loop. -/
theorem System2User_natCast (k : Kernel) (virtAddr : ℤ) (b : Buffer) (keepNULL : Bool) (n : ℕ) :
    k.System2User virtAddr n b keepNULL = k.copyOut virtAddr b keepNULL 0 n := by
  unfold System2User
  rw [if_neg (by omega)]
  cases n with
  | zero => rfl
  | succ n => rw [if_neg (by omega),Int.toNat_natCast]

theorem System2User_sees {k k' : Kernel} {x : BitVec 32} {b : Buffer} {keepNULL : Bool} {n : ℕ}
    {count : ℤ} (hapart : k.machine.translation.Apart) (hn : n ≤ 2 ^ 32)
    (h : k.System2User x.toInt n b keepNULL = .ok (count,k')) :
    Sees k k' (overlay k.machine.user x b 0 (copied b keepNULL 0 n)) := by
  rw [System2User_natCast] at h
  exact (copyOut_sees hapart (by omega) h).2

theorem System2User_of_writable {k : Kernel} {x : BitVec 32} (b : Buffer) (keepNULL : Bool)
    {n : ℕ} (h : ∀ j, j < n → k.machine.translation.Writable (x + BitVec.ofNat 32 j)) :
    ∃ r, k.System2User x.toInt n b keepNULL = .ok r := by
  rw [System2User_natCast]
  exact copyOut_of_writable (fun j _ hj => h j (by omega))

end Kernel
end NachOS
