import NachOS.Memory

/-! `Bitmap` (lib/bitmap.cc): bits packed into an array of 32-bit words, and what its
operations do to the set of bits. -/
namespace NachOS

open StateMachine Memory

def divRoundUp (n s : ℤ) : ℤ := n.tdiv s + if n.tmod s > 0 then 1 else 0

abbrev BitsInWord : ℕ := 32

structure Bitmap where
  numBits : ℕ
  map : ℕ → BitVec 32

namespace Bitmap

/-- The length of `map`, which no operation changes. -/
def numWords (m : Bitmap) : ℕ := (divRoundUp m.numBits BitsInWord).toNat

/-- `map[i]`. -/
def getWord (m : Bitmap) (i : ℤ) : Except Fault (BitVec 32) := do
  inBounds (0 ≤ i ∧ i < m.numWords)
  return m.map i.toNat

def setWord (m : Bitmap) (i : ℤ) (w : BitVec 32) : Except Fault Bitmap := do
  inBounds (0 ≤ i ∧ i < m.numWords)
  return { m with map := Function.update m.map i.toNat w }

/-- `1 << (which % BitsInWord)`. -/
def mask (which : ℤ) : BitVec 32 := 1#32 <<< (which.tmod BitsInWord).toNat

def Test (m : Bitmap) (which : ℤ) : Except Fault Bool := do
  check (0 ≤ which ∧ which < m.numBits)
  let w ← m.getWord (which.tdiv BitsInWord)
  return w &&& mask which != 0#32

/-- `Mark` and `Clear`, which differ in what they do to the word and in the value that the
bit then has. -/
def assign (f : BitVec 32 → BitVec 32) (b : Bool) (m : Bitmap) (which : ℤ) :
    Except Fault Bitmap := do
  check (0 ≤ which ∧ which < m.numBits)
  let w ← m.getWord (which.tdiv BitsInWord)
  let m ← m.setWord (which.tdiv BitsInWord) (f w)
  let marked ← m.Test which
  check (marked = b)
  return m

def Mark (m : Bitmap) (which : ℤ) : Except Fault Bitmap :=
  m.assign (fun w => w ||| mask which) true which

def Clear (m : Bitmap) (which : ℤ) : Except Fault Bitmap :=
  m.assign (fun w => w &&& ~~~mask which) false which

/-- The loop of the constructor over words `0` to `n - 1`. -/
def zeroWords (m : Bitmap) : ℕ → Except Fault Bitmap
  | 0 => return m
  | n + 1 => do
    let m ← m.zeroWords n
    m.setWord n 0#32

/-- The loop of the constructor over bits `0` to `n - 1`. -/
def clearBits (m : Bitmap) : ℕ → Except Fault Bitmap
  | 0 => return m
  | n + 1 => do
    let m ← m.clearBits n
    m.Clear n

/-- The constructor, with what the allocated words contain. -/
def new (numItems : ℤ) (junk : ℕ → BitVec 32) : Except Fault Bitmap := do
  check (numItems > 0)
  let m : Bitmap := ⟨numItems.toNat,junk⟩
  let m ← m.zeroWords m.numWords
  m.clearBits m.numBits

/-- The loop of `FindAndSet` from bit `i` on, with `n` bits to go. -/
def findAndSet (m : Bitmap) (i : ℕ) : ℕ → Except Fault (ℤ × Bitmap)
  | 0 => return (-1,m)
  | n + 1 => do
    if (← m.Test i) = false then
      return (i,← m.Mark i)
    else
      m.findAndSet (i + 1) n

def FindAndSet (m : Bitmap) : Except Fault (ℤ × Bitmap) := m.findAndSet 0 m.numBits

/-- The loop of `NumClear` over bits `0` to `n - 1`. -/
def numClear (m : Bitmap) : ℕ → Except Fault ℤ
  | 0 => return 0
  | n + 1 => do
    let count ← m.numClear n
    if (← m.Test n) = false then return count + 1 else return count

def NumClear (m : Bitmap) : Except Fault ℤ := m.numClear m.numBits

/-! The set of bits. -/

def bit (m : Bitmap) (i : ℕ) : Bool := (m.map (i / 32)).getLsbD (i % 32)

variable {m : Bitmap} {i n : ℕ}

theorem getLsbD_mask {j k : ℕ} (hj : j < 32) : (1#32 <<< k).getLsbD j = decide (j = k) := by
  rw [BitVec.getLsbD_shiftLeft,BitVec.getLsbD_one]
  by_cases hjk : j = k
  · subst hjk
    simp [hj]
  · by_cases hlt : j < k
    · simp [hjk,hlt]
    · simp [hjk,show j - k ≠ 0 by omega]

theorem and_one_shiftLeft_ne_zero (w : BitVec 32) (h : i < 32) :
    (w &&& 1#32 <<< i != 0#32) = w.getLsbD i := by
  have hbit : (w &&& 1#32 <<< i).getLsbD i = w.getLsbD i := by simp [h]
  by_cases hw : w.getLsbD i = true
  · rw [hw,bne_iff_ne]
    intro hz
    rw [hz,hw] at hbit
    simp at hbit
  · have hz : w &&& 1#32 <<< i = 0#32 := by
      apply BitVec.eq_of_getLsbD_eq
      intro j hj
      by_cases hij : j = i
      · subst hij
        rw [hbit]
        simpa using hw
      · rw [BitVec.getLsbD_and,getLsbD_mask hj]
        simp [hij]
    simpa [hz] using hw

theorem numWords_eq (m : Bitmap) : m.numWords = (m.numBits + 31) / 32 := by
  unfold numWords divRoundUp
  rw [Int.tdiv_eq_ediv_of_nonneg (Int.natCast_nonneg _),
    Int.tmod_eq_emod_of_nonneg (Int.natCast_nonneg _)]
  simp only [BitsInWord]
  split <;> omega

theorem index_natCast (n : ℕ) : (n : ℤ).tdiv BitsInWord = ((n / 32 : ℕ) : ℤ) := by
  rw [Int.tdiv_eq_ediv_of_nonneg (Int.natCast_nonneg n)]
  rfl

theorem mask_natCast (n : ℕ) : mask n = 1#32 <<< (n % 32) := by
  rw [mask,Int.tmod_eq_emod_of_nonneg (Int.natCast_nonneg n)]
  rfl

/-- The word of a bit is in the array. -/
theorem word_lt (h : n < m.numBits) :
    (0 : ℤ) ≤ ((n / 32 : ℕ) : ℤ) ∧ ((n / 32 : ℕ) : ℤ) < m.numWords := by
  rw [numWords_eq]
  omega

theorem Test_ok (h : n < m.numBits) : m.Test n = .ok (m.bit n) := by
  have hr : (0 : ℤ) ≤ n ∧ (n : ℤ) < m.numBits := by omega
  rw [Test,check_of hr,index_natCast,getWord,inBounds_of (word_lt h),mask_natCast]
  simp only [bind,Except.bind,pure,Except.pure,Int.toNat_natCast]
  rw [and_one_shiftLeft_ne_zero _ (Nat.mod_lt _ (by decide))]
  rfl

/-- Replacing one bit of one word replaces one bit of the map. -/
theorem bit_update {w : BitVec 32} {b : Bool}
    (hw : ∀ j, j < 32 → w.getLsbD j = if j = n % 32 then b else (m.map (n / 32)).getLsbD j) :
    ∀ j, ({ m with map := Function.update m.map (n / 32) w } : Bitmap).bit j =
      if j = n then b else m.bit j := by
  intro j
  by_cases hword : j / 32 = n / 32
  · rw [bit]
    simp only [hword,Function.update_self]
    rw [hw _ (Nat.mod_lt _ (by decide))]
    by_cases hj : j = n
    · simp [hj]
    · rw [if_neg (by omega),if_neg hj,bit,hword]
  · have hj : j ≠ n := fun he => hword (by rw [he])
    simp [bit,hword,hj]

/-- A word is replaced, and the bit tested then. -/
theorem assign_ok (h : n < m.numBits) {f : BitVec 32 → BitVec 32} {b : Bool}
    (hf : ∀ j, j < 32 → (f (m.map (n / 32))).getLsbD j =
      if j = n % 32 then b else (m.map (n / 32)).getLsbD j) :
    ∃ m', m.assign f b n = .ok m' ∧ m'.numBits = m.numBits ∧
      ∀ j, m'.bit j = if j = n then b else m.bit j := by
  have hr : (0 : ℤ) ≤ n ∧ (n : ℤ) < m.numBits := by omega
  have hbit := bit_update hf
  refine ⟨{ m with map := Function.update m.map (n / 32) (f (m.map (n / 32))) },
    check_bind_ok.mpr ⟨hr,?_⟩,rfl,hbit⟩
  rw [index_natCast]
  refine bind_ok.mpr ⟨_,inBounds_bind_ok.mpr ⟨word_lt h,rfl⟩,bind_ok.mpr
    ⟨_,inBounds_bind_ok.mpr ⟨word_lt h,rfl⟩,bind_ok.mpr ⟨_,Test_ok h,check_bind_ok.mpr ⟨?_,rfl⟩⟩⟩⟩
  exact (hbit n).trans (if_pos rfl)

theorem Mark_ok (h : n < m.numBits) :
    ∃ m', m.Mark n = .ok m' ∧ m'.numBits = m.numBits ∧
      ∀ j, m'.bit j = if j = n then true else m.bit j := by
  refine assign_ok h fun j hj => ?_
  rw [mask_natCast,BitVec.getLsbD_or,getLsbD_mask hj]
  by_cases hjn : j = n % 32 <;> simp [hjn]

theorem Clear_ok (h : n < m.numBits) :
    ∃ m', m.Clear n = .ok m' ∧ m'.numBits = m.numBits ∧
      ∀ j, m'.bit j = if j = n then false else m.bit j := by
  refine assign_ok h fun j hj => ?_
  rw [mask_natCast,BitVec.getLsbD_and,BitVec.getLsbD_not,getLsbD_mask hj]
  by_cases hjn : j = n % 32 <;> simp [hjn,hj]

theorem zeroWords_ok (h : n ≤ m.numWords) :
    ∃ m', m.zeroWords n = .ok m' ∧ m'.numBits = m.numBits ∧ ∀ i, i < n → m'.map i = 0#32 := by
  induction n with
  | zero => exact ⟨m,rfl,rfl,fun i hi => absurd hi (Nat.not_lt_zero i)⟩
  | succ n ih =>
    obtain ⟨m₁,hfirst,hn₁,hzero⟩ := ih (by omega)
    have hwords : m₁.numWords = m.numWords := by rw [numWords,hn₁,numWords]
    have hbounds : (0 : ℤ) ≤ n ∧ (n : ℤ) < m₁.numWords := by omega
    refine ⟨_,bind_ok.mpr ⟨m₁,hfirst,inBounds_bind_ok.mpr ⟨hbounds,rfl⟩⟩,hn₁,fun i hi => ?_⟩
    simp only [Int.toNat_natCast]
    by_cases he : i = n
    · rw [he,Function.update_self]
    · rw [Function.update_of_ne he,hzero i (by omega)]

theorem clearBits_ok (h : n ≤ m.numBits) :
    ∃ m', m.clearBits n = .ok m' ∧ m'.numBits = m.numBits ∧
      ∀ j, m'.bit j = if j < n then false else m.bit j := by
  induction n with
  | zero => exact ⟨m,rfl,rfl,by simp⟩
  | succ n ih =>
    obtain ⟨m₁,h₁,hn₁,hb₁⟩ := ih (by omega)
    obtain ⟨m₂,h₂,hn₂,hb₂⟩ := Clear_ok (m := m₁) (n := n) (by omega)
    refine ⟨m₂,bind_ok.mpr ⟨m₁,h₁,h₂⟩,hn₂.trans hn₁,fun j => ?_⟩
    rw [hb₂,hb₁]
    by_cases hj : j = n
    · simp [hj]
    · by_cases hlt : j < n
      · simp [hlt,show j < n + 1 by omega]
      · simp [hj,hlt,show ¬ j < n + 1 by omega]

/-- A new bitmap has no bit set, in any of its words. -/
theorem new_ok (h : 0 < n) (junk : ℕ → BitVec 32) :
    ∃ m, new n junk = .ok m ∧ m.numBits = n ∧ ∀ j, j / 32 < m.numWords → m.bit j = false := by
  obtain ⟨m₁,hzero,hn₁,hmap⟩ := zeroWords_ok (m := ⟨n,junk⟩) le_rfl
  obtain ⟨m₂,hclear,hn₂,hbits⟩ := clearBits_ok (m := m₁) le_rfl
  refine ⟨m₂,check_bind_ok.mpr ⟨by omega,bind_ok.mpr ⟨m₁,hzero,hclear⟩⟩,hn₂.trans hn₁,
    fun j hj => ?_⟩
  rw [numWords,hn₂,hn₁] at hj
  rw [hbits,bit,hmap _ hj]
  simp

theorem findAndSet_ok (hi : i + n ≤ m.numBits) :
    (∃ j m', i ≤ j ∧ j < i + n ∧ m.bit j = false ∧ (∀ l, i ≤ l → l < j → m.bit l = true) ∧
      m.findAndSet i n = .ok ((j : ℤ),m') ∧ m'.numBits = m.numBits ∧
      ∀ l, m'.bit l = if l = j then true else m.bit l) ∨
    ((∀ l, i ≤ l → l < i + n → m.bit l = true) ∧ m.findAndSet i n = .ok (-1,m)) := by
  induction n generalizing i with
  | zero => exact Or.inr ⟨fun l _ _ => by omega,rfl⟩
  | succ n ih =>
    have htest := Test_ok (m := m) (n := i) (by omega)
    cases hb : m.bit i with
    | false =>
      obtain ⟨m',hm,hn,hbits⟩ := Mark_ok (m := m) (n := i) (by omega)
      refine Or.inl ⟨i,m',le_rfl,by omega,hb,fun l _ _ => by omega,?_,hn,hbits⟩
      simp [findAndSet,htest,hb,hm,bind,Except.bind,pure,Except.pure]
    | true =>
      have hstep : m.findAndSet i (n + 1) = m.findAndSet (i + 1) n := by
        simp [findAndSet,htest,hb,bind,Except.bind]
      have hfirst : ∀ l, i ≤ l → (i + 1 ≤ l → m.bit l = true) → m.bit l = true := by
        intro l hl hrest
        by_cases he : l = i
        · rw [he]; exact hb
        · exact hrest (by omega)
      rw [hstep]
      rcases ih (i := i + 1) (by omega) with ⟨j,m',h₁,h₂,h₃,h₄,h₅,h₆,h₇⟩ | ⟨hall,he⟩
      · exact Or.inl ⟨j,m',by omega,by omega,h₃,
          fun l hl hlj => hfirst l hl fun h' => h₄ l h' hlj,h₅,h₆,h₇⟩
      · exact Or.inr ⟨fun l hl hln => hfirst l hl fun h' => hall l h' (by omega),he⟩

/-- `FindAndSet` takes the least clear bit, if there is one. -/
theorem FindAndSet_ok (m : Bitmap) :
    (∃ j m', j < m.numBits ∧ m.bit j = false ∧ (∀ l, l < j → m.bit l = true) ∧
      m.FindAndSet = .ok ((j : ℤ),m') ∧ m'.numBits = m.numBits ∧
      ∀ l, m'.bit l = if l = j then true else m.bit l) ∨
    ((∀ l, l < m.numBits → m.bit l = true) ∧ m.FindAndSet = .ok (-1,m)) := by
  rcases findAndSet_ok (m := m) (i := 0) (n := m.numBits) (by omega) with
    ⟨j,m',_,h₂,h₃,h₄,h₅,h₆,h₇⟩ | ⟨hall,he⟩
  · exact Or.inl ⟨j,m',by omega,h₃,fun l hl => h₄ l (by omega) hl,h₅,h₆,h₇⟩
  · exact Or.inr ⟨fun l hl => hall l (by omega) (by omega),he⟩

/-- The clear bits among the first `n`. -/
def clear (m : Bitmap) (n : ℕ) : Finset ℕ := (Finset.range n).filter fun i => m.bit i = false

theorem mem_clear : i ∈ m.clear n ↔ i < n ∧ m.bit i = false := by
  simp [clear]

/-- Marking a clear bit takes it from the clear bits. -/
theorem clear_of_mark {m' : Bitmap} (h : ∀ l, m'.bit l = if l = i then true else m.bit l)
    (n : ℕ) : m'.clear n = (m.clear n).erase i := by
  ext j
  by_cases hj : j = i
  · simp [mem_clear,h,hj]
  · simp [mem_clear,h,hj]

/-- If the bits set are those of a list, all others are clear. -/
theorem card_clear {l : List ℕ} (hl : l.Nodup) (hlt : ∀ j ∈ l, j < n)
    (h : ∀ j, j < n → (m.bit j = true ↔ j ∈ l)) : (m.clear n).card + l.length = n := by
  have hclear : m.clear n = Finset.range n \ l.toFinset := by
    ext j
    rw [mem_clear,Finset.mem_sdiff,Finset.mem_range,List.mem_toFinset]
    refine and_congr_right fun hj => ?_
    rw [← h j hj]
    simp
  have hsub : l.toFinset ⊆ Finset.range n := by
    intro j hj
    exact Finset.mem_range.mpr (hlt j (List.mem_toFinset.mp hj))
  have hcard := Finset.card_sdiff_add_card_eq_card hsub
  rw [List.toFinset_card_of_nodup hl,Finset.card_range] at hcard
  rw [hclear]
  exact hcard

theorem numClear_ok (h : n ≤ m.numBits) : m.numClear n = .ok ((m.clear n).card : ℤ) := by
  induction n with
  | zero => rfl
  | succ n ih =>
    have hsplit : m.clear (n + 1) =
        if m.bit n = false then insert n (m.clear n) else m.clear n := by
      ext j
      by_cases hb : m.bit n = false
      · rw [if_pos hb,Finset.mem_insert,mem_clear,mem_clear]
        constructor
        · rintro ⟨hj,hbj⟩
          by_cases he : j = n
          · exact Or.inl he
          · exact Or.inr ⟨by omega,hbj⟩
        · rintro (rfl | ⟨hj,hbj⟩)
          · exact ⟨by omega,hb⟩
          · exact ⟨by omega,hbj⟩
      · rw [if_neg hb,mem_clear,mem_clear]
        constructor
        · rintro ⟨hj,hbj⟩
          have he : j ≠ n := fun he => hb (he ▸ hbj)
          exact ⟨by omega,hbj⟩
        · rintro ⟨hj,hbj⟩
          exact ⟨by omega,hbj⟩
    have htest := Test_ok (m := m) (n := n) (by omega)
    have hnot : n ∉ m.clear n := by simp [mem_clear]
    simp only [numClear,ih (by omega),htest,bind,Except.bind,pure,Except.pure]
    cases hb : m.bit n with
    | false => simp [hsplit,hb,Finset.card_insert_of_notMem hnot]
    | true => simp [hsplit,hb]

theorem NumClear_ok (m : Bitmap) : m.NumClear = .ok ((m.clear m.numBits).card : ℤ) :=
  numClear_ok le_rfl

/-! The bytes of the map, as `PersistentBitmap` reads and writes them. -/

def bytes (m : Bitmap) : Buffer := fun k => (m.map (k / 4)).extractLsb' (8 * (k % 4)) 8

def ofBytes (numBits : ℕ) (b : Buffer) : Bitmap := ⟨numBits,fun j => word b (4 * j)⟩

theorem bit_ofBytes (numBits : ℕ) (b : Buffer) (i : ℕ) :
    (ofBytes numBits b).bit i = (b (i / 8)).getLsbD (i % 8) := by
  rw [bit,ofBytes]
  simp only
  rw [getLsbD_word _ _ (Nat.mod_lt _ (by decide)),
    show 4 * (i / 32) + i % 32 / 8 = i / 8 by omega,show i % 32 % 8 = i % 8 by omega]

theorem getLsbD_bytes (m : Bitmap) (i : ℕ) : (m.bytes (i / 8)).getLsbD (i % 8) = m.bit i := by
  rw [bytes,bit,BitVec.getLsbD_extractLsb']
  simp only [Nat.mod_lt i (show 8 > 0 by decide),decide_true,Bool.true_and]
  rw [show i / 8 / 4 = i / 32 by omega,show 8 * (i / 8 % 4) + i % 8 = i % 32 by omega]

end Bitmap
end NachOS
