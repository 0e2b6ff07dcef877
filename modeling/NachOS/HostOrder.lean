import NachOS.Machine

/-! Simulated memory on hosts of either byte order (machine/translate.cc with and without
`HOST_IS_BIG_ENDIAN`): words are accessed through pointers, in the order of the host, and
converted. -/
namespace NachOS

open StateMachine hiding Machine
open Memory Hardware

/-- The order in which the host keeps the bytes of a word. -/
inductive ByteOrder
  | littleEndian
  | bigEndian
  deriving DecidableEq, Repr

namespace ByteOrder

variable (o : ByteOrder)

/-- The place of byte `i` of an `n`-byte word, counted from the least significant one. -/
def place (n i : ℕ) : ℕ :=
  match o with
  | .littleEndian => i
  | .bigEndian => n - 1 - i

/-! Accesses through a pointer. -/

/-- `*(unsigned short *) &b[p]` -/
def loadShort (b : Buffer) (p : ℕ) : BitVec 16 :=
  b (p + o.place 2 1) ++ b (p + o.place 2 0)

/-- `*(unsigned int *) &b[p]` -/
def loadWord (b : Buffer) (p : ℕ) : BitVec 32 :=
  b (p + o.place 4 3) ++ b (p + o.place 4 2) ++ b (p + o.place 4 1) ++ b (p + o.place 4 0)

def storeShort (b : Buffer) (p : ℕ) (w : BitVec 16) : Buffer := fun j =>
  if p ≤ j ∧ j < p + 2 then w.extractLsb' (8 * o.place 2 (j - p)) 8 else b j

def storeWord (b : Buffer) (p : ℕ) (w : BitVec 32) : Buffer := fun j =>
  if p ≤ j ∧ j < p + 4 then w.extractLsb' (8 * o.place 4 (j - p)) 8 else b j

/-! The conversions. -/

def WordToHost (word : BitVec 32) : BitVec 32 :=
  match o with
  | .bigEndian =>
    word >>> 24 &&& 0x000000ff#32 ||| word >>> 8 &&& 0x0000ff00#32 |||
      word <<< 8 &&& 0x00ff0000#32 ||| word <<< 24 &&& 0xff000000#32
  | .littleEndian => word

def ShortToHost (shortword : BitVec 16) : BitVec 16 :=
  match o with
  | .bigEndian => shortword <<< 8 &&& 0xff00#16 ||| shortword >>> 8 &&& 0x00ff#16
  | .littleEndian => shortword

def WordToMachine (word : BitVec 32) : BitVec 32 := o.WordToHost word

def ShortToMachine (shortword : BitVec 16) : BitVec 16 := o.ShortToHost shortword

def ReadMem (m : Machine) (addr : BitVec 32) (size : ℕ) :
    Except Fault (Except ExceptionType (ℤ × Machine)) := do
  match ← m.access addr size false with
  | .error e => return .error e
  | .ok (p,m) =>
    if size = 1 then return .ok ((m.mainMemory p).toInt,m)
    else if size = 2 then return .ok ((o.ShortToHost (o.loadShort m.mainMemory p)).toNat,m)
    else if size = 4 then return .ok ((o.WordToHost (o.loadWord m.mainMemory p)).toInt,m)
    else .error .assertion

def WriteMem (m : Machine) (addr : BitVec 32) (size : ℕ) (value : ℤ) :
    Except Fault (Except ExceptionType Machine) := do
  match ← m.access addr size true with
  | .error e => return .error e
  | .ok (p,m) =>
    if size = 1 then
      return .ok { m with mainMemory := Function.update m.mainMemory p (BitVec.ofInt 8 value) }
    else if size = 2 then
      return .ok { m with
        mainMemory := o.storeShort m.mainMemory p (o.ShortToMachine (BitVec.ofInt 16 value)) }
    else if size = 4 then
      return .ok { m with
        mainMemory := o.storeWord m.mainMemory p (o.WordToMachine (BitVec.ofInt 32 value)) }
    else .error .assertion

/-! Both hosts see the bytes in the same way. -/

theorem swapped_word (a b c d : BitVec 8) :
    bigEndian.WordToHost (a ++ b ++ c ++ d) = d ++ c ++ b ++ a := by
  apply BitVec.eq_of_getLsbD_eq
  intro i hi
  interval_cases i <;>
    simp only [WordToHost,BitVec.getLsbD_or,BitVec.getLsbD_and,BitVec.getLsbD_ushiftRight,
      BitVec.getLsbD_shiftLeft,BitVec.getLsbD_append] <;> simp

theorem swapped_short (a b : BitVec 8) : bigEndian.ShortToHost (a ++ b) = b ++ a := by
  apply BitVec.eq_of_getLsbD_eq
  intro i hi
  interval_cases i <;>
    simp only [ShortToHost,BitVec.getLsbD_or,BitVec.getLsbD_and,BitVec.getLsbD_ushiftRight,
      BitVec.getLsbD_shiftLeft,BitVec.getLsbD_append] <;> simp

theorem byte_swapped_word (w : BitVec 32) {k : ℕ} (hk : k < 4) :
    (bigEndian.WordToHost w).extractLsb' (8 * (4 - 1 - k)) 8 = w.extractLsb' (8 * k) 8 := by
  apply BitVec.eq_of_getLsbD_eq
  intro i hi
  interval_cases k <;> interval_cases i <;>
    simp [WordToHost]

theorem byte_swapped_short (w : BitVec 16) {k : ℕ} (hk : k < 2) :
    (bigEndian.ShortToHost w).extractLsb' (8 * (2 - 1 - k)) 8 = w.extractLsb' (8 * k) 8 := by
  apply BitVec.eq_of_getLsbD_eq
  intro i hi
  interval_cases k <;> interval_cases i <;>
    simp [ShortToHost]

@[simp] theorem WordToHost_loadWord (b : Buffer) (p : ℕ) :
    o.WordToHost (o.loadWord b p) = word b p := by
  cases o with
  | littleEndian => rfl
  | bigEndian => exact swapped_word (b p) (b (p + 1)) (b (p + 2)) (b (p + 3))

@[simp] theorem ShortToHost_loadShort (b : Buffer) (p : ℕ) :
    o.ShortToHost (o.loadShort b p) = b (p + 1) ++ b p := by
  cases o with
  | littleEndian => rfl
  | bigEndian => exact swapped_short (b p) (b (p + 1))

@[simp] theorem storeWord_WordToMachine (b : Buffer) (p : ℕ) (w : BitVec 32) :
    o.storeWord b p (o.WordToMachine w) = setWord b p w := by
  cases o with
  | littleEndian => rfl
  | bigEndian =>
    funext j
    unfold storeWord setWord
    split
    · exact byte_swapped_word w (by omega)
    · rfl

/-- Two bytes, least significant first. -/
def setShort (b : Buffer) (p : ℕ) (w : BitVec 16) : Buffer := fun j =>
  if p ≤ j ∧ j < p + 2 then w.extractLsb' (8 * (j - p)) 8 else b j

@[simp] theorem storeShort_ShortToMachine (b : Buffer) (p : ℕ) (w : BitVec 16) :
    o.storeShort b p (o.ShortToMachine w) = setShort b p w := by
  cases o with
  | littleEndian => rfl
  | bigEndian =>
    funext j
    unfold storeShort setShort
    split
    · exact byte_swapped_short w (by omega)
    · rfl

/-- A byte of an integer. -/
theorem byte_ofInt {w : ℕ} (hw : w = 8 ∨ w = 16 ∨ w = 32) (v : ℤ) {k : ℕ} (hk : 8 * k + 8 ≤ w) :
    ((BitVec.ofInt w v).extractLsb' (8 * k) 8).toNat = (v / 256 ^ k % 256).toNat := by
  rw [BitVec.extractLsb'_toNat,BitVec.toNat_ofInt,Nat.shiftRight_eq_div_pow]
  rcases hw with rfl | rfl | rfl
  · obtain rfl : k = 0 := by omega
    norm_num
    omega
  · have hcases : k = 0 ∨ k = 1 := by omega
    rcases hcases with rfl | rfl <;> norm_num <;> omega
  · have hcases : k = 0 ∨ k = 1 ∨ k = 2 ∨ k = 3 := by omega
    rcases hcases with rfl | rfl | rfl | rfl <;> norm_num <;> omega

theorem store_one (b : Buffer) (p : ℕ) (v : ℤ) :
    Machine.store b p 1 v = Function.update b p (BitVec.ofInt 8 v) := by
  funext j
  by_cases h : j = p
  · rw [h,Function.update_self,Machine.store,if_pos (by omega),Nat.sub_self]
    apply BitVec.eq_of_toNat_eq
    rw [byte_ofInt (by decide) v (by decide),BitVec.toNat_ofInt]
    norm_num
  · rw [Function.update_of_ne h]
    exact if_neg (by omega)

theorem store_two (b : Buffer) (p : ℕ) (v : ℤ) :
    Machine.store b p 2 v = setShort b p (BitVec.ofInt 16 v) := by
  funext j
  unfold Machine.store setShort
  split
  · apply BitVec.eq_of_toNat_eq
    rw [byte_ofInt (by decide) v (by omega),byte_ofInt (by decide) v (by omega)]
  · rfl

theorem toNat_short (a b : BitVec 8) : ((a ++ b).toNat : ℤ) = b.toNat + 256 * a.toNat := by
  rw [BitVec.toNat_append,← Nat.shiftLeft_add_eq_or_of_lt b.isLt,Nat.shiftLeft_eq]
  push_cast
  ring

/-- Every host reads and writes what the model of the hardware does. -/
theorem ReadMem_eq (m : Machine) (addr : BitVec 32) (size : ℕ) :
    o.ReadMem m addr size = m.ReadMem addr size := by
  unfold ReadMem Machine.ReadMem
  simp only [WordToHost_loadWord,ShortToHost_loadShort,toNat_short]
  rfl

theorem WriteMem_eq (m : Machine) (addr : BitVec 32) (size : ℕ) (value : ℤ) :
    o.WriteMem m addr size value = m.WriteMem addr size value := by
  unfold WriteMem Machine.WriteMem
  simp only [storeWord_WordToMachine,storeShort_ShortToMachine,← store_one,← store_two]
  congr 1
  funext r
  cases r with
  | error e => rfl
  | ok r =>
    by_cases h₁ : size = 1
    · subst h₁
      rfl
    · by_cases h₂ : size = 2
      · subst h₂
        rfl
      · by_cases h₄ : size = 4
        · subst h₄
          rfl
        · simp only [h₁,h₂,h₄,if_false,or_false]

/-! Sequences of accesses. -/

inductive Access
  | read (addr : BitVec 32) (size : ℕ)
  | write (addr : BitVec 32) (size : ℕ) (value : ℤ)

/-- What the caller of an access is told. -/
inductive Answer
  | value (v : ℤ)
  | written
  | refused (e : ExceptionType)

def access (m : Machine) : Access → Except Fault (Answer × Machine)
  | .read addr size => do
    match ← o.ReadMem m addr size with
    | .error e => return (.refused e,m)
    | .ok (v,m) => return (.value v,m)
  | .write addr size value => do
    match ← o.WriteMem m addr size value with
    | .error e => return (.refused e,m)
    | .ok m => return (.written,m)

def accesses (m : Machine) : List Access → Except Fault (List Answer × Machine)
  | [] => return ([],m)
  | a :: as => do
    let (answer,m) ← o.access m a
    let (answers,m) ← accesses m as
    return (answer :: answers,m)

theorem access_eq (o' : ByteOrder) (m : Machine) (a : Access) : o.access m a = o'.access m a := by
  cases a with
  | read addr size => simp only [access,ReadMem_eq]
  | write addr size value => simp only [access,WriteMem_eq]

theorem accesses_eq (o' : ByteOrder) (m : Machine) (as : List Access) :
    o.accesses m as = o'.accesses m as := by
  induction as generalizing m with
  | nil => rfl
  | cons a as ih => simp only [accesses,access_eq o o',ih]

theorem word_eq_sum (b : Buffer) (p : ℕ) :
    word b p = BitVec.ofNat 32 (∑ i ∈ Finset.range 4, (b (p + i)).toNat * 256 ^ i) := by
  have hbyte : ∀ {n : ℕ} (a : BitVec n) (c : BitVec 8),
      (a ++ c).toNat = a.toNat * 256 + c.toNat := by
    intro n a c
    rw [BitVec.toNat_append,← Nat.shiftLeft_add_eq_or_of_lt c.isLt,Nat.shiftLeft_eq]
  apply BitVec.eq_of_toNat_eq
  have h₀ := (b p).isLt
  have h₁ := (b (p + 1)).isLt
  have h₂ := (b (p + 2)).isLt
  have h₃ := (b (p + 3)).isLt
  rw [word,hbyte,hbyte,hbyte,BitVec.toNat_ofNat]
  simp only [Finset.sum_range_succ,Finset.sum_range_zero,Nat.add_zero]
  omega

theorem short_eq_sum (b : Buffer) (p : ℕ) : ((b p).toNat + 256 * (b (p + 1)).toNat : ℤ) =
    (BitVec.ofNat 32 (∑ i ∈ Finset.range 2, (b (p + i)).toNat * 256 ^ i)).toInt := by
  have h₀ := (b p).isLt
  have h₁ := (b (p + 1)).isLt
  simp only [Finset.sum_range_succ,Finset.sum_range_zero,Nat.add_zero]
  rw [BitVec.toInt_eq_toNat_of_lt] <;> rw [BitVec.toNat_ofNat] <;> omega

/-- The digits of a number below `256 ^ size`. -/
theorem digit_eq (value : ℤ) {size i : ℕ} (hsize : size = 1 ∨ size = 2 ∨ size = 4) (hi : i < size) :
    (value / 256 ^ i % 256).toNat = (value % 256 ^ size).toNat / 256 ^ i % 256 := by
  rcases hsize with rfl | rfl | rfl <;> interval_cases i <;> norm_num <;> omega

/-- On a host of either byte order, memory is a sequence of bytes and a number in it stands with
its least significant byte first. -/
theorem memory_little_endian (m : Machine) (x : BitVec 32) {size : ℕ}
    (hsize : size = 1 ∨ size = 2 ∨ size = 4) :
    (∀ p m', m.access x size false = .ok (.ok (p,m')) → size ≠ 1 →
      o.ReadMem m x size = .ok (.ok ((BitVec.ofNat 32
        (∑ i ∈ Finset.range size, (m.mainMemory (p + i)).toNat * 256 ^ i)).toInt,m'))) ∧
    (∀ value p m', m.access x size true = .ok (.ok (p,m')) →
      ∃ b, o.WriteMem m x size value = .ok (.ok { m' with mainMemory := b }) ∧
        (∀ i < size, (b (p + i)).toNat = (value % 256 ^ size).toNat / 256 ^ i % 256) ∧
        ∀ j, ¬ (p ≤ j ∧ j < p + size) → b j = m.mainMemory j) ∧
    ∀ o' as, o.accesses m as = accesses o' m as := by
  refine ⟨fun p m' ht hne => ?_,fun value p m' ht => ?_,fun o' as => accesses_eq o o' m as⟩
  · obtain ⟨i,_,rfl⟩ := Machine.physical_of_access ht
    rw [ReadMem_eq,Machine.ReadMem,ht]
    rcases hsize with rfl | rfl | rfl
    · exact absurd rfl hne
    · rw [← short_eq_sum]
      rfl
    · rw [← word_eq_sum]
      rfl
  · obtain ⟨i,_,rfl⟩ := Machine.physical_of_access ht
    refine ⟨Machine.store m.mainMemory p size value,?_,fun i hi => ?_,fun j hj => if_neg hj⟩
    · rw [WriteMem_eq,Machine.WriteMem,ht]
      exact if_pos hsize
    · rw [Machine.store,if_pos (by omega),Nat.add_sub_cancel_left,
        byte_ofInt (by decide) value (by omega)]
      exact digit_eq value hsize hi

/-- A byte-addressed memory of one page. -/
def examplePage : Machine where
  registers := fun _ => 0#32
  mainMemory := fun i => BitVec.ofNat 8 i
  translation := .pageTable (fun _ => ⟨0#32,0#32,true,false,false,false⟩) 1

/-- The word at address 4 on a big-endian host: the bytes there are 4, 5, 6 and 7. -/
theorem memory_little_endian_word :
    ∃ m', bigEndian.ReadMem examplePage 4#32 4 = .ok (.ok (0x07060504,m')) := by
  have htranslate : ∃ m', examplePage.access 4#32 4 false = .ok (.ok (4,m')) := ⟨_,rfl⟩
  obtain ⟨m',ht⟩ := htranslate
  have hread := (memory_little_endian bigEndian examplePage 4#32 (Or.inr (Or.inr rfl))).1 4 m' ht
    (by decide)
  refine ⟨m',hread.trans ?_⟩
  congr 3

end ByteOrder
end NachOS
