import NachOS.StateMachine

/-! Byte buffers, the 32-bit little-endian words stored in them, and C strings.
A buffer is a function from offsets: the operations touch exactly the offsets the C
code touches, and what was in a buffer before is an argument, never assumed. -/
namespace NachOS

abbrev Byte := BitVec 8

abbrev Buffer := ℕ → Byte

namespace Memory

/-- Copy `n` bytes of `src` from offset `i` to offset `k` of `dst`. -/
def bcopy (src : Buffer) (i : ℕ) (dst : Buffer) (k n : ℕ) : Buffer := fun j =>
  if k ≤ j ∧ j < k + n then src (i + (j - k)) else dst j

theorem bcopy_in (src : Buffer) (i : ℕ) (dst : Buffer) {k n j : ℕ} (h : k ≤ j ∧ j < k + n) :
    bcopy src i dst k n j = src (i + (j - k)) := if_pos h

theorem bcopy_out (src : Buffer) (i : ℕ) (dst : Buffer) {k n j : ℕ} (h : j < k ∨ k + n ≤ j) :
    bcopy src i dst k n j = dst j := if_neg (by omega)

@[simp] theorem bcopy_zero (src : Buffer) (i : ℕ) (dst : Buffer) (k : ℕ) :
    bcopy src i dst k 0 = dst := by
  funext j
  exact bcopy_out src i dst (by omega)

/-- Copying a block and then the block after it copies both. -/
theorem bcopy_bcopy (src : Buffer) (i : ℕ) (dst : Buffer) (k m n : ℕ) :
    bcopy src (i + m) (bcopy src i dst k m) (k + m) n = bcopy src i dst k (m + n) := by
  funext j
  unfold bcopy
  by_cases h₁ : k + m ≤ j ∧ j < k + m + n
  · rw [if_pos h₁,if_pos (by omega),show i + m + (j - (k + m)) = i + (j - k) by omega]
  · by_cases h₂ : k ≤ j ∧ j < k + m
    · rw [if_neg h₁,if_pos h₂,if_pos (by omega)]
    · rw [if_neg h₁,if_neg h₂,if_neg (by omega)]

/-! Words. -/

/-- The word at offset `k`, least significant byte first. -/
def word (b : Buffer) (k : ℕ) : BitVec 32 := b (k + 3) ++ b (k + 2) ++ b (k + 1) ++ b k

def setWord (b : Buffer) (k : ℕ) (w : BitVec 32) : Buffer := fun j =>
  if k ≤ j ∧ j < k + 4 then w.extractLsb' (8 * (j - k)) 8 else b j

theorem getLsbD_word (b : Buffer) (k : ℕ) {i : ℕ} (h : i < 32) :
    (word b k).getLsbD i = (b (k + i / 8)).getLsbD (i % 8) := by
  have hcases : i / 8 = 0 ∨ i / 8 = 1 ∨ i / 8 = 2 ∨ i / 8 = 3 := by omega
  simp only [word,BitVec.getLsbD_append]
  rcases hcases with hc | hc | hc | hc
  · rw [if_pos (by omega),hc,show i % 8 = i by omega]
    rfl
  · rw [if_neg (by omega),if_pos (by omega),hc,show i % 8 = i - 8 by omega]
  · rw [if_neg (by omega),if_neg (by omega),if_pos (by omega),hc,show i % 8 = i - 8 - 8 by omega]
  · rw [if_neg (by omega),if_neg (by omega),if_neg (by omega),hc,
      show i % 8 = i - 8 - 8 - 8 by omega]

theorem word_congr {b b' : Buffer} {k : ℕ} (h : ∀ j, k ≤ j → j < k + 4 → b j = b' j) :
    word b k = word b' k := by
  unfold word
  rw [h (k + 3) (by omega) (by omega),h (k + 2) (by omega) (by omega),
    h (k + 1) (by omega) (by omega),h k (by omega) (by omega)]

theorem setWord_out (b : Buffer) {k j : ℕ} (w : BitVec 32) (h : j < k ∨ k + 4 ≤ j) :
    setWord b k w j = b j := if_neg (by omega)

theorem word_setWord (b : Buffer) (k : ℕ) (w : BitVec 32) : word (setWord b k w) k = w := by
  apply BitVec.eq_of_getLsbD_eq
  intro i hi
  rw [getLsbD_word _ _ hi,setWord,if_pos (by omega),BitVec.getLsbD_extractLsb']
  simp only [show i % 8 < 8 by omega,decide_true,Bool.true_and]
  rw [show 8 * (k + i / 8 - k) + i % 8 = i by omega]

theorem word_setWord_of_disjoint (b : Buffer) {k l : ℕ} (w : BitVec 32)
    (h : l + 4 ≤ k ∨ k + 4 ≤ l) : word (setWord b k w) l = word b l :=
  word_congr fun _ h₁ h₂ => setWord_out b w (by omega)

/-! Machine integers. -/

/-- Two's-complement wrap-around of a 32-bit `int`. -/
def wrap (z : ℤ) : ℤ := (BitVec.ofInt 32 z).toInt

theorem wrap_of_range {z : ℤ} (h₁ : -2 ^ 31 ≤ z) (h₂ : z < 2 ^ 31) : wrap z = z := by
  rw [wrap,BitVec.toInt_ofInt]
  exact Int.bmod_eq_of_le (by omega) (by omega)

@[simp] theorem wrap_zero : wrap 0 = 0 := rfl

@[simp] theorem wrap_one : wrap 1 = 1 := rfl

theorem wrap_range (z : ℤ) : -2 ^ 31 ≤ wrap z ∧ wrap z < 2 ^ 31 := by
  rw [wrap,BitVec.toInt_ofInt]
  have hlow := Int.le_bmod (x := z) (m := 2 ^ 32) (by norm_num)
  have hhigh := Int.bmod_lt (x := z) (m := 2 ^ 32) (by norm_num)
  omega

/-- A sum that is too large comes out negative. -/
theorem wrap_of_overflow {z : ℤ} (h₁ : 2 ^ 31 ≤ z) (h₂ : z < 2 ^ 32 + 2 ^ 31) :
    wrap z = z - 2 ^ 32 := by
  rw [wrap,BitVec.toInt_ofInt,← Int.sub_bmod_right]
  exact Int.bmod_eq_of_le (by omega) (by omega)

/-- The `int` at offset `k`. -/
def int (b : Buffer) (k : ℕ) : ℤ := (word b k).toInt

def setInt (b : Buffer) (k : ℕ) (z : ℤ) : Buffer := setWord b k (BitVec.ofInt 32 z)

theorem int_range (b : Buffer) (k : ℕ) : -2 ^ 31 ≤ int b k ∧ int b k < 2 ^ 31 := by
  have h₁ := BitVec.le_toInt (word b k)
  have h₂ := BitVec.toInt_lt (x := word b k)
  exact ⟨h₁,h₂⟩

theorem int_congr {b b' : Buffer} {k : ℕ} (h : ∀ j, k ≤ j → j < k + 4 → b j = b' j) :
    int b k = int b' k := by
  rw [int,int,word_congr h]

theorem setInt_out (b : Buffer) {k j : ℕ} (z : ℤ) (h : j < k ∨ k + 4 ≤ j) :
    setInt b k z j = b j := setWord_out b _ h

theorem int_setInt (b : Buffer) (k : ℕ) {z : ℤ} (h₁ : -2 ^ 31 ≤ z) (h₂ : z < 2 ^ 31) :
    int (setInt b k z) k = z := by
  rw [int,setInt,word_setWord]
  exact wrap_of_range h₁ h₂

theorem int_setInt_of_disjoint (b : Buffer) {k l : ℕ} (z : ℤ) (h : l + 4 ≤ k ∨ k + 4 ≤ l) :
    int (setInt b k z) l = int b l := by
  rw [int,int,setInt,word_setWord_of_disjoint b _ h]

/-- The `unsigned short` at offset `k`. -/
def short (b : Buffer) (k : ℕ) : ℕ := (b (k + 1) ++ b k).toNat

theorem short_congr {b b' : Buffer} {k l : ℕ} (h : ∀ j, j < 2 → b (k + j) = b' (l + j)) :
    short b k = short b' l := by
  have h₀ : b k = b' l := h 0 (by omega)
  rw [short,short,h₀,h 1 (by omega)]

theorem int_congr_shift {b b' : Buffer} {k l : ℕ} (h : ∀ j, j < 4 → b (k + j) = b' (l + j)) :
    int b k = int b' l := by
  have h₀ : b k = b' l := h 0 (by omega)
  rw [int,int,word,word,h₀,h 1 (by omega),h 2 (by omega),h 3 (by omega)]

/-- Consecutive `int`s from offset `k` on. -/
def setInts (b : Buffer) (k : ℕ) : List ℤ → Buffer
  | [] => b
  | z :: zs => setInts (setInt b k z) (k + 4) zs

theorem setInts_below (b : Buffer) {k j : ℕ} (zs : List ℤ) (h : j < k) :
    setInts b k zs j = b j := by
  induction zs generalizing b k with
  | nil => rfl
  | cons z zs ih =>
    rw [setInts,ih _ (by omega)]
    exact setInt_out b z (Or.inl h)

theorem int_setInts (b : Buffer) (k : ℕ) {zs : List ℤ} (hr : ∀ z ∈ zs, -2 ^ 31 ≤ z ∧ z < 2 ^ 31)
    {i : ℕ} {z : ℤ} (hi : zs[i]? = some z) : int (setInts b k zs) (k + 4 * i) = z := by
  induction zs generalizing b k i with
  | nil => cases hi
  | cons y ys ih =>
    rw [setInts]
    cases i with
    | zero =>
      cases hi
      obtain ⟨h₁,h₂⟩ := hr z List.mem_cons_self
      have hkeep : int (setInts (setInt b k z) (k + 4) ys) k = int (setInt b k z) k :=
        int_congr fun j _ hj => setInts_below _ ys hj
      exact hkeep.trans (int_setInt b k h₁ h₂)
    | succ i =>
      have hrest := ih (setInt b k y) (k + 4) (fun z hz => hr z (List.mem_cons_of_mem y hz)) hi
      rw [show k + 4 * (i + 1) = k + 4 + 4 * i by omega]
      exact hrest

/-- The bytes of a list as the contents of a buffer. -/
def ofList (bs : List Byte) : Buffer := fun k => bs.getD k 0#8

/-! C strings. -/

/-- The first difference of two strings within `n` characters, or 0. -/
def strncmp (a b : Buffer) (i j : ℕ) : ℕ → ℤ
  | 0 => 0
  | n + 1 =>
    if a i ≠ b j then (a i).toNat - (b j).toNat
    else if a i = 0#8 then 0
    else strncmp a b (i + 1) (j + 1) n

/-- Copy a string to offset `k`, filling up with zeros to `n` characters. -/
def strncpy (dst : Buffer) (k : ℕ) (src : Buffer) (i : ℕ) : ℕ → Buffer
  | 0 => dst
  | n + 1 =>
    if src i = 0#8 then fun j => if k ≤ j ∧ j < k + (n + 1) then 0#8 else dst j
    else strncpy (Function.update dst k (src i)) (k + 1) src (i + 1) n

/-- The characters of the string at offset `i`, cut to `n`. -/
def cString (a : Buffer) (i : ℕ) : ℕ → List Byte
  | 0 => []
  | n + 1 => if a i = 0#8 then [] else a i :: cString a (i + 1) n

theorem strncmp_eq_zero (a b : Buffer) (i j n : ℕ) :
    strncmp a b i j n = 0 ↔ cString a i n = cString b j n := by
  induction n generalizing i j with
  | zero => simp [strncmp,cString]
  | succ n ih =>
    by_cases h : a i = b j
    · by_cases hz : b j = 0#8
      · simp [strncmp,cString,h,hz]
      · simp [strncmp,cString,h,hz,ih]
    · have hne : ((a i).toNat : ℤ) - (b j).toNat ≠ 0 := by
        intro he
        exact h (BitVec.eq_of_toNat_eq (by omega))
      simp only [strncmp,ne_eq,h,not_false_eq_true,if_true,hne,false_iff]
      intro he
      by_cases ha : a i = 0#8
      · by_cases hb : b j = 0#8
        · exact h (ha.trans hb.symm)
        · simp [cString,ha,hb] at he
      · by_cases hb : b j = 0#8
        · simp [cString,ha,hb] at he
        · simp [cString,ha,hb,h] at he

theorem strncpy_out (dst : Buffer) (k : ℕ) (src : Buffer) (i n : ℕ) {j : ℕ}
    (h : j < k ∨ k + n ≤ j) : strncpy dst k src i n j = dst j := by
  induction n generalizing dst k i with
  | zero => rfl
  | succ n ih =>
    unfold strncpy
    split
    · exact if_neg (by omega)
    · rw [ih _ _ _ (by omega),Function.update_of_ne (by omega)]

theorem cString_congr {a b : Buffer} {i j n : ℕ} (h : ∀ m, m < n → a (i + m) = b (j + m)) :
    cString a i n = cString b j n := by
  induction n generalizing i j with
  | zero => rfl
  | succ n ih =>
    have h₀ : a i = b j := h 0 (by omega)
    have htail : cString a (i + 1) n = cString b (j + 1) n := ih fun m hm => by
      rw [show i + 1 + m = i + (m + 1) by omega,show j + 1 + m = j + (m + 1) by omega]
      exact h (m + 1) (by omega)
    rw [cString,cString,h₀,htail]

/-- The buffer holds the string `p` and the zero byte that ends it. -/
structure Spells (a : Buffer) (p : List Byte) : Prop where
  chars : ∀ k, k ≤ p.length → a k = p.getD k 0#8
  nonzero : 0#8 ∉ p

theorem cString_of_chars {a : Buffer} {p : List Byte} (hp : 0#8 ∉ p) {i n : ℕ}
    (h : ∀ k, k ≤ p.length → a (i + k) = p.getD k 0#8) : cString a i n = p.take n := by
  induction p generalizing i n with
  | nil =>
    cases n with
    | zero => rfl
    | succ n =>
      have hz : a i = 0#8 := h 0 le_rfl
      simp [cString,hz]
  | cons c p ih =>
    cases n with
    | zero => rfl
    | succ n =>
      rw [List.mem_cons,not_or] at hp
      have hc : a i = c := h 0 (by simp)
      have htail : cString a (i + 1) n = p.take n := by
        refine ih hp.2 fun k hk => ?_
        rw [show i + 1 + k = i + (k + 1) by omega]
        simpa using h (k + 1) (by simpa using hk)
      have hne : ¬ c = 0#8 := fun e => hp.1 e.symm
      rw [cString,hc,if_neg hne,htail,List.take_succ_cons]

theorem Spells.cString_take {a : Buffer} {p : List Byte} (h : Spells a p) (n : ℕ) :
    cString a 0 n = p.take n := by
  refine cString_of_chars h.nonzero fun k hk => ?_
  rw [Nat.zero_add]
  exact h.chars k hk

theorem Spells.cString_eq {a : Buffer} {p : List Byte} (h : Spells a p) {n : ℕ}
    (hn : p.length ≤ n) : cString a 0 n = p :=
  (h.cString_take n).trans (List.take_of_length_le hn)

/-- The string of one character. -/
def letter (c : Byte) : Buffer := ofList [c]

theorem spells_letter {c : Byte} (hc : c ≠ 0#8) : Spells (letter c) [c] := by
  refine ⟨fun k _ => rfl,?_⟩
  simpa using hc.symm

/-- What was copied reads back as the string that was copied. -/
theorem cString_strncpy (dst : Buffer) (k : ℕ) (src : Buffer) (i n : ℕ) :
    cString (strncpy dst k src i n) k n = cString src i n := by
  induction n generalizing dst k i with
  | zero => rfl
  | succ n ih =>
    by_cases hz : src i = 0#8
    · simp [strncpy,cString,hz]
    · have hfirst : strncpy (Function.update dst k (src i)) (k + 1) src (i + 1) n k = src i := by
        rw [strncpy_out _ _ _ _ _ (by omega),Function.update_self]
      rw [strncpy,if_neg hz,cString,hfirst,if_neg hz,ih,cString,if_neg hz]

end Memory
end NachOS
