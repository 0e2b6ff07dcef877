import NachOS.Memory

/-! Decimal numerals as lists of characters: their value, and the canonical numeral of an
integer. -/
namespace NachOS
namespace Decimal

/-- A digit, as a signed `char`. -/
def IsDigit (c : Byte) : Prop := 48 ≤ c.toInt ∧ c.toInt ≤ 57

instance (c : Byte) : Decidable (IsDigit c) := inferInstanceAs (Decidable (_ ∧ _))

def digit (c : Byte) : ℤ := c.toInt - 48

abbrev minus : Byte := 45#8

/-- The value of the number whose digits are those of `n` and then `ds`. -/
def value (n : ℤ) (ds : List Byte) : ℤ := ds.foldl (fun n c => n * 10 + digit c) n

/-- The line is an optional minus sign and one or more digits, of value `v`. -/
def Numeral (line : List Byte) (v : ℤ) : Prop :=
  ∃ ds, ds ≠ [] ∧ (∀ c ∈ ds, IsDigit c) ∧
    (line = ds ∧ v = value 0 ds ∨ line = minus :: ds ∧ v = -value 0 ds)

@[simp] theorem value_nil (n : ℤ) : value n [] = n := rfl

@[simp] theorem value_cons (n : ℤ) (c : Byte) (ds : List Byte) :
    value n (c :: ds) = value (n * 10 + digit c) ds := rfl

theorem value_append (n : ℤ) (ds es : List Byte) : value n (ds ++ es) = value (value n ds) es :=
  List.foldl_append

theorem le_value {n : ℤ} {ds : List Byte} (hn : 0 ≤ n) (hds : ∀ c ∈ ds, IsDigit c) :
    n ≤ value n ds := by
  induction ds generalizing n with
  | nil => exact le_rfl
  | cons c ds ih =>
    obtain ⟨hc,hds⟩ := List.forall_mem_cons.mp hds
    have hdigit : 0 ≤ digit c := by
      unfold digit
      have := hc.1
      omega
    have hrest := ih (n := n * 10 + digit c) (by omega) hds
    rw [value_cons]
    omega

theorem minus_not_digit : ¬ IsDigit minus := by decide

/-! The canonical numeral. -/

def character (d : ℕ) : Byte := BitVec.ofNat 8 (d + 48)

def digits (m : ℕ) : List Byte :=
  if m = 0 then [character 0] else (Nat.digits 10 m).reverse.map character

def numeral (n : ℤ) : List Byte := if n < 0 then minus :: digits n.natAbs else digits n.natAbs

theorem toInt_character {d : ℕ} (hd : d < 10) : (character d).toInt = d + 48 := by
  interval_cases d <;> rfl

theorem isDigit_character {d : ℕ} (hd : d < 10) : IsDigit (character d) := by
  unfold IsDigit
  rw [toInt_character hd]
  omega

theorem digits_isDigit (m : ℕ) : ∀ c ∈ digits m, IsDigit c := by
  intro c hc
  unfold digits at hc
  split at hc
  · rw [List.mem_singleton.mp hc]
    exact isDigit_character (by omega)
  · obtain ⟨d,hd,rfl⟩ := List.mem_map.mp hc
    exact isDigit_character (Nat.digits_lt_base (by omega) (List.mem_reverse.mp hd))

theorem digits_ne_nil (m : ℕ) : digits m ≠ [] := by
  unfold digits
  split
  · simp
  · simpa [Nat.digits_eq_nil_iff_eq_zero] using ‹¬ m = 0›

theorem digits_of_pos {m : ℕ} (hm : m ≠ 0) :
    (Nat.digits 10 m).reverse.map character =
      (Nat.digits 10 (m / 10)).reverse.map character ++ [character (m % 10)] := by
  rw [Nat.digits_def' (by omega) (Nat.pos_of_ne_zero hm),List.reverse_cons,List.map_append]
  rfl

theorem value_digits (m : ℕ) : value 0 (digits m) = m := by
  have hall : value 0 ((Nat.digits 10 m).reverse.map character) = m := by
    induction m using Nat.strongRecOn with
    | _ m ih =>
      by_cases hm : m = 0
      · simp [hm]
      · rw [digits_of_pos hm,value_append,ih (m / 10) (by omega),value_cons,value_nil,digit,
          toInt_character (by omega)]
        omega
  unfold digits
  split
  · simp [*,digit,character]
  · exact hall

theorem numeral_spells (n : ℤ) : Numeral (numeral n) n := by
  refine ⟨digits n.natAbs,digits_ne_nil _,digits_isDigit _,?_⟩
  rw [value_digits]
  unfold numeral
  split
  · exact Or.inr ⟨rfl,by omega⟩
  · exact Or.inl ⟨rfl,by omega⟩

/-- A minus sign stands before negative numbers only. -/
theorem minus_mem_numeral (n : ℤ) : minus ∈ numeral n ↔ n < 0 := by
  unfold numeral
  split
  · simpa using ‹n < 0›
  · refine iff_of_false (fun hm => ?_) ‹_›
    exact minus_not_digit (digits_isDigit _ _ hm)

/-- Only the number zero begins with the digit zero. -/
theorem digits_head (m : ℕ) {ds : List Byte} (h : digits m = character 0 :: ds) : m = 0 := by
  by_contra hm
  have hne : Nat.digits 10 m ≠ [] := by simpa [Nat.digits_eq_nil_iff_eq_zero] using hm
  have hlast := Nat.getLast_digit_ne_zero 10 hm
  have hlt := Nat.digits_lt_base (by omega) (List.getLast_mem hne)
  have hhead := congrArg List.head? h
  rw [digits,if_neg hm,List.head?_map,List.head?_reverse,List.getLast?_eq_some_getLast hne] at hhead
  have hchar : character ((Nat.digits 10 m).getLast hne) = character 0 := by simpa using hhead
  have htoInt := congrArg BitVec.toInt hchar
  rw [toInt_character hlt,toInt_character (by omega)] at htoInt
  omega

theorem length_digits_le {m k : ℕ} (hk : 0 < k) (h : m < 10 ^ k) : (digits m).length ≤ k := by
  unfold digits
  split
  · exact hk
  · rw [List.length_map,List.length_reverse]
    exact (Nat.digits_length_le_iff (by omega) m).mpr h

theorem length_numeral_le {n : ℤ} (h₁ : -2 ^ 31 ≤ n) (h₂ : n < 2 ^ 31) :
    (numeral n).length ≤ 11 := by
  have hlength : (digits n.natAbs).length ≤ 10 := length_digits_le (by omega) (by omega)
  unfold numeral
  split
  · rw [List.length_cons]
    omega
  · omega

/-- No other characters than digits and a minus sign. -/
theorem notMem_numeral {c : Byte} (hc : ¬ IsDigit c) (hminus : c ≠ minus) (n : ℤ) :
    c ∉ numeral n := by
  have hdigits : c ∉ digits n.natAbs := fun hm => hc (digits_isDigit _ c hm)
  unfold numeral
  split
  · rw [List.mem_cons,not_or]
    exact ⟨hminus,hdigits⟩
  · exact hdigits

end Decimal
end NachOS
