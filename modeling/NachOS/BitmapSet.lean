import NachOS.Bitmap

/-! `Bitmap` (lib/bitmap.cc) as a set: any sequence of its operations is one of operations on a
set of numbers, and no access is outside the array of words. -/
namespace NachOS
namespace Bitmap

open StateMachine Memory

variable {m m' : Bitmap} {which : ℤ} {i n : ℕ}

theorem assign_outside (f : BitVec 32 → BitVec 32) (b : Bool)
    (hr : ¬ (0 ≤ which ∧ which < m.numBits)) : m.assign f b which = .error .assertion := by
  unfold assign check
  rw [if_neg hr]
  rfl

/-! Operations on a set of numbers below `n`. -/

inductive Operation
  | Mark (which : ℤ)
  | Clear (which : ℤ)
  | Test (which : ℤ)
  | FindAndSet
  | NumClear

inductive Answer
  | done
  | bit (b : Bool)
  | number (i : ℤ)
  deriving DecidableEq

def perform (m : Bitmap) : Operation → Except Fault (Answer × Bitmap)
  | .Mark which => do return (.done,← m.Mark which)
  | .Clear which => do return (.done,← m.Clear which)
  | .Test which => do return (.bit (← m.Test which),m)
  | .FindAndSet => do
    let (i,m) ← m.FindAndSet
    return (.number i,m)
  | .NumClear => do return (.number (← m.NumClear),m)

/-- The same operation on the set `S` of the bits that are set. -/
def performSet (n : ℕ) (S : Finset ℕ) : Operation → Except Fault (Answer × Finset ℕ)
  | .Mark which => do
    check (0 ≤ which ∧ which < n)
    return (.done,insert which.toNat S)
  | .Clear which => do
    check (0 ≤ which ∧ which < n)
    return (.done,S.erase which.toNat)
  | .Test which => do
    check (0 ≤ which ∧ which < n)
    return (.bit (which.toNat ∈ S),S)
  | .FindAndSet =>
    if h : (Finset.range n \ S).Nonempty then
      return (.number ((Finset.range n \ S).min' h),insert ((Finset.range n \ S).min' h) S)
    else
      return (.number (-1),S)
  | .NumClear => return (.number (n - S.card),S)

/-- The bits of all words are those of the set. -/
structure Represents (n : ℕ) (m : Bitmap) (S : Finset ℕ) : Prop where
  numBits : m.numBits = n
  subset : S ⊆ Finset.range n
  bits : ∀ j : ℕ, j / 32 < m.numWords → (m.bit j = true ↔ j ∈ S)

variable {S : Finset ℕ}

/-- The words cover the bits. -/
theorem Represents.bit_iff (h : Represents n m S) (hi : i < n) : m.bit i = true ↔ i ∈ S := by
  have hword := word_lt (m := m) (h.numBits.symm ▸ hi)
  exact h.bits i (by omega)

theorem Represents.insert (h : Represents n m S) (hi : i < n) (hn : m'.numBits = m.numBits)
    (hbits : ∀ j, m'.bit j = if j = i then true else m.bit j) :
    Represents n m' (insert i S) := by
  refine ⟨hn.trans h.numBits,Finset.insert_subset (Finset.mem_range.mpr hi) h.subset,
    fun j hj => ?_⟩
  rw [numWords,hn] at hj
  rw [hbits,Finset.mem_insert,← h.bits j hj]
  by_cases he : j = i <;> simp [he]

theorem Represents.erase (h : Represents n m S) (hn : m'.numBits = m.numBits)
    (hbits : ∀ j, m'.bit j = if j = i then false else m.bit j) :
    Represents n m' (S.erase i) := by
  refine ⟨hn.trans h.numBits,(Finset.erase_subset i S).trans h.subset,fun j hj => ?_⟩
  rw [numWords,hn] at hj
  rw [hbits,Finset.mem_erase,← h.bits j hj]
  by_cases he : j = i <;> simp [he]

/-- A number that is checked is a bit of the bitmap, or the call fails. -/
theorem Represents.inside (h : Represents n m S) (which : ℤ) :
    (∃ i : ℕ, which = i ∧ i < n) ∨
      (¬ (0 ≤ which ∧ which < n) ∧ ¬ (0 ≤ which ∧ which < m.numBits)) := by
  rw [h.numBits]
  by_cases hr : 0 ≤ which ∧ which < n
  · exact Or.inl ⟨which.toNat,by omega,by omega⟩
  · exact Or.inr ⟨hr,hr⟩

/-- `Mark` and `Clear`, given what they do to a bit of the bitmap. -/
theorem Represents.assign (h : Represents n m S) {f : BitVec 32 → BitVec 32} {b : Bool}
    {T : ℕ → Finset ℕ} (which : ℤ) (hin : ∀ i : ℕ, which = i → i < n →
      ∃ m', m.assign f b which = .ok m' ∧ Represents n m' (T i)) :
    Agree (Represents n) (m.assign f b which >>= fun m' => Except.ok (Answer.done,m'))
      (check (0 ≤ which ∧ which < n) >>= fun _ => Except.ok (Answer.done,T which.toNat)) := by
  rcases h.inside which with ⟨i,rfl,hi⟩ | ⟨hset,hout⟩
  · obtain ⟨m',hc,hr'⟩ := hin i rfl hi
    have hr : (0 : ℤ) ≤ i ∧ (i : ℤ) < n := by omega
    rw [hc,check_of hr]
    exact .ok Answer.done hr'
  · rw [assign_outside f b hout,check,if_neg hset]
    exact .error .assertion

theorem Represents.mark (h : Represents n m S) (which : ℤ) :
    Agree (Represents n) (m.perform (.Mark which)) (performSet n S (.Mark which)) := by
  refine h.assign (T := fun i => Insert.insert i S) which fun i hwhich hi => ?_
  obtain ⟨m',hrun,hn,hbits⟩ := Mark_ok (m := m) (h.numBits.symm ▸ hi)
  rw [hwhich]
  exact ⟨m',hrun,h.insert hi hn hbits⟩

theorem Represents.clear (h : Represents n m S) (which : ℤ) :
    Agree (Represents n) (m.perform (.Clear which)) (performSet n S (.Clear which)) := by
  refine h.assign (T := fun i => S.erase i) which fun i hwhich hi => ?_
  obtain ⟨m',hrun,hn,hbits⟩ := Clear_ok (m := m) (h.numBits.symm ▸ hi)
  rw [hwhich]
  exact ⟨m',hrun,h.erase hn hbits⟩

theorem Represents.test (h : Represents n m S) (which : ℤ) :
    Agree (Represents n) (m.perform (.Test which)) (performSet n S (.Test which)) := by
  rcases h.inside which with ⟨i,rfl,hi⟩ | ⟨hset,hout⟩
  · have htest := Test_ok (m := m) (h.numBits.symm ▸ hi)
    have hr : (0 : ℤ) ≤ i ∧ (i : ℤ) < n := by omega
    have hbit : m.bit i = decide (i ∈ S) := by
      rw [Bool.eq_iff_iff,decide_eq_true_iff,h.bit_iff hi]
    rw [perform,htest,hbit,performSet,check_of hr]
    exact .ok _ h
  · rw [perform,Test,check,if_neg hout,performSet,check,if_neg hset]
    exact .error .assertion

theorem Represents.findAndSet (h : Represents n m S) :
    Agree (Represents n) (m.perform .FindAndSet) (performSet n S .FindAndSet) := by
  have hn := h.numBits
  have hfree : ∀ l, l < n → (m.bit l = false ↔ l ∉ S) := fun l hl => by
    rw [← h.bit_iff hl,Bool.not_eq_true]
  rcases FindAndSet_ok m with ⟨j,m',hj,hclear,hleast,hc,hn',hbits⟩ | ⟨hall,hc⟩
  · -- `j` is the least number of the complement
    rw [hn] at hj
    have hmem : j ∈ Finset.range n \ S :=
      Finset.mem_sdiff.mpr ⟨Finset.mem_range.mpr hj,(hfree j hj).mp hclear⟩
    have hmin : (Finset.range n \ S).min' ⟨j,hmem⟩ = j := by
      refine le_antisymm (Finset.min'_le _ j hmem) (Finset.le_min' _ _ j fun l hl => ?_)
      obtain ⟨hl,hS⟩ := Finset.mem_sdiff.mp hl
      by_contra hlt
      rw [← hfree l (Finset.mem_range.mp hl),hleast l (by omega)] at hS
      cases hS
    have hcall : m.perform .FindAndSet = .ok (.number j,m') := bind_ok.mpr ⟨_,hc,rfl⟩
    rw [hcall,performSet,dif_pos ⟨j,hmem⟩,hmin]
    exact .ok _ (h.insert hj hn' hbits)
  · rw [hn] at hall
    have hempty : ¬ (Finset.range n \ S).Nonempty := by
      rintro ⟨l,hl⟩
      obtain ⟨hl,hS⟩ := Finset.mem_sdiff.mp hl
      exact hS ((h.bit_iff (Finset.mem_range.mp hl)).mp (hall l (Finset.mem_range.mp hl)))
    have hcall : m.perform .FindAndSet = .ok (.number (-1),m) := bind_ok.mpr ⟨_,hc,rfl⟩
    rw [hcall,performSet,dif_neg hempty]
    exact .ok _ h

theorem Represents.numClear (h : Represents n m S) :
    Agree (Represents n) (m.perform .NumClear) (performSet n S .NumClear) := by
  have hn := h.numBits
  have hclear : m.clear n = Finset.range n \ S := by
    ext l
    rw [mem_clear,Finset.mem_sdiff,Finset.mem_range]
    refine and_congr_right fun hl => ?_
    rw [← h.bit_iff hl,Bool.not_eq_true]
  have hcard := Finset.card_sdiff_add_card_eq_card h.subset
  rw [Finset.card_range] at hcard
  have hsize : ((Finset.range n \ S).card : ℤ) = n - S.card := by omega
  have hcount : m.NumClear = .ok ((n : ℤ) - S.card) := by
    rw [NumClear_ok,hn,hclear,hsize]
  rw [perform,hcount,performSet]
  exact .ok _ h

/-- One operation. -/
theorem Represents.perform (h : Represents n m S) (op : Operation) :
    Agree (Represents n) (m.perform op) (performSet n S op) := by
  cases op with
  | Mark which => exact h.mark which
  | Clear which => exact h.clear which
  | Test which => exact h.test which
  | FindAndSet => exact h.findAndSet
  | NumClear => exact h.numClear

/-- A new bitmap is the empty set. -/
theorem represents_new (h : 0 < n) (junk : ℕ → BitVec 32) :
    ∃ m, new n junk = .ok m ∧ Represents n m ∅ := by
  obtain ⟨m,hnew,hn,hbits⟩ := new_ok h junk
  exact ⟨m,hnew,hn,Finset.empty_subset _,fun j hj => by simp [hbits j hj]⟩

/-- Only a number that is not below `n` makes an operation fail. -/
theorem performSet_error {op : Operation} {e : Fault} (h : performSet n S op = .error e) :
    e = .assertion := by
  cases op with
  | Mark which | Clear which | Test which =>
    rw [performSet,check] at h
    split at h <;> cases h
    rfl
  | FindAndSet =>
    rw [performSet] at h
    split at h <;> cases h
  | NumClear => cases h

/-- `Bitmap` is a set of numbers below `numItems`: from a new bitmap any operations answer as on
the empty set, and then the bits of all words are those of the set. An operation fails only
where it asserts that its number is below `numItems`, so no word outside the array is used. -/
theorem bitmap_is_set {numItems : ℤ} (h : 0 < numItems) (junk : ℕ → BitVec 32)
    (ops : List Operation) :
    ∃ m, new numItems junk = .ok m ∧
      Agree (Represents numItems.toNat) (answers perform m ops)
        (answers (performSet numItems.toNat) ∅ ops) ∧
      ∀ e, answers perform m ops = .error e → e = .assertion := by
  obtain ⟨n,rfl⟩ := Int.eq_ofNat_of_zero_le h.le
  obtain ⟨m,hnew,hempty⟩ := represents_new (n := n) (by omega) junk
  have hagree := Agree.answers (fun _ _ op hr => Represents.perform hr op) hempty ops
  refine ⟨m,hnew,hagree,fun e he => ?_⟩
  rw [he] at hagree
  generalize hset : answers (performSet n) ∅ ops = r at hagree
  cases hagree
  exact answers_error (fun _ _ _ hstep => performSet_error hstep) hset

/-- Thirty-three bits in two words, the second with whatever the memory held: the last bit is
marked and the first ones are taken in order. -/
theorem bitmap_is_set_partial :
    ∃ m, new 33 (fun _ => 0xFFFFFFFF#32) = .ok m ∧
      Agree (Represents 33)
        (answers perform m [.Mark 32,.FindAndSet,.FindAndSet,.Clear 0,.NumClear])
        (answers (performSet 33) ∅ [.Mark 32,.FindAndSet,.FindAndSet,.Clear 0,.NumClear]) ∧
      ∀ e, answers perform m [.Mark 32,.FindAndSet,.FindAndSet,.Clear 0,.NumClear] = .error e →
        e = .assertion :=
  bitmap_is_set (by decide) _ _

example : answers (performSet 3) ∅ [.Mark 1,.FindAndSet,.FindAndSet,.FindAndSet,.NumClear] =
    .ok ([.done,.number 0,.number 2,.number (-1),.number 0],{2,0,1}) := by rfl

end Bitmap
end NachOS
