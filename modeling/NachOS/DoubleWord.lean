import Mathlib.Data.BitVec
import Mathlib.Tactic.Ring

/-! Numbers of twice the width of a word, kept in two words: addition with a carry, doubling and
the two's complement, each done word by word. -/
namespace DoubleWord

variable {w : ℕ} (hi lo hi' lo' : BitVec w)

/-- The upper word of the sum; the sum of the lower words has overflowed if it is less than a
summand. -/
def addHi : BitVec w := (if lo + lo' < lo' then hi + 1#w else hi) + hi'

/-- The upper word of the double. -/
def doubleHi : BitVec w := if lo.msb then hi <<< 1 ||| 1#w else hi <<< 1

/-- The upper word of the two's complement. -/
def negHi : BitVec w := if ~~~lo + 1#w = 0#w then ~~~hi + 1#w else ~~~hi

theorem toNat_append : (hi ++ lo).toNat = hi.toNat * 2 ^ w + lo.toNat := by
  rw [BitVec.toNat_append,← Nat.shiftLeft_add_eq_or_of_lt lo.isLt,Nat.shiftLeft_eq]

/-- Reduction to two words reduces the upper one. -/
theorem mod_two_words {b l : ℕ} (h : l < b) (x : ℕ) :
    (x * b + l) % (b * b) = x % b * b + l := by
  have hdiv := Nat.div_add_mod x b
  have hlt : x % b * b + l < b * b := by
    have hmod : x % b + 1 ≤ b := Nat.mod_lt x (by omega)
    calc x % b * b + l < (x % b + 1) * b := by rw [Nat.add_mul]; omega
      _ ≤ b * b := Nat.mul_le_mul_right b hmod
  have hsplit : x * b + l = x % b * b + l + b * b * (x / b) := by
    calc x * b + l = (b * (x / b) + x % b) * b + l := by rw [hdiv]
      _ = x % b * b + l + b * b * (x / b) := by ring
  rw [hsplit,Nat.add_mul_mod_self_left,Nat.mod_eq_of_lt hlt]

theorem append_eq_ofNat {x : ℕ} (hhi : hi = BitVec.ofNat w x) :
    hi ++ lo = BitVec.ofNat (w + w) (x * 2 ^ w + lo.toNat) := by
  apply BitVec.eq_of_toNat_eq
  rw [toNat_append,hhi,BitVec.toNat_ofNat,BitVec.toNat_ofNat,pow_add,mod_two_words lo.isLt]

theorem append_add : addHi hi lo hi' lo' ++ (lo + lo') = hi ++ lo + (hi' ++ lo') := by
  have hl := lo.isLt
  have hl' := lo'.isLt
  have hsum : (lo + lo').toNat = (lo.toNat + lo'.toNat) % 2 ^ w := BitVec.toNat_add lo lo'
  -- the carry is the part of the lower sum that does not fit
  have hcarry : addHi hi lo hi' lo' =
      BitVec.ofNat w (hi.toNat + hi'.toNat + (lo.toNat + lo'.toNat) / 2 ^ w) := by
    apply BitVec.eq_of_toNat_eq
    unfold addHi
    rcases Nat.lt_or_ge (lo.toNat + lo'.toNat) (2 ^ w) with hlt | hge
    · have hno : ¬ lo + lo' < lo' := by
        rw [BitVec.lt_def,hsum,Nat.mod_eq_of_lt hlt]
        omega
      rw [if_neg hno,Nat.div_eq_of_lt hlt,BitVec.toNat_add,BitVec.toNat_ofNat,Nat.add_zero]
    · have hdiv : (lo.toNat + lo'.toNat) / 2 ^ w = 1 :=
        Nat.div_eq_of_lt_le (by omega) (by omega)
      have hmod : (lo.toNat + lo'.toNat) % 2 ^ w = lo.toNat + lo'.toNat - 2 ^ w := by
        rw [Nat.mod_eq_sub_mod hge,Nat.mod_eq_of_lt (by omega)]
      have hyes : lo + lo' < lo' := by
        rw [BitVec.lt_def,hsum,hmod]
        omega
      rw [if_pos hyes,hdiv]
      simp only [BitVec.toNat_add,BitVec.toNat_ofNat,Nat.mod_add_mod,Nat.add_mod_mod]
      rw [Nat.add_right_comm]
  have hparts := Nat.div_add_mod (lo.toNat + lo'.toNat) (2 ^ w)
  rw [append_eq_ofNat _ _ hcarry,hsum]
  apply BitVec.eq_of_toNat_eq
  rw [BitVec.toNat_ofNat,BitVec.toNat_add,toNat_append,toNat_append]
  congr 1
  calc (hi.toNat + hi'.toNat + (lo.toNat + lo'.toNat) / 2 ^ w) * 2 ^ w +
        (lo.toNat + lo'.toNat) % 2 ^ w
      = (hi.toNat + hi'.toNat) * 2 ^ w + (2 ^ w * ((lo.toNat + lo'.toNat) / 2 ^ w) +
        (lo.toNat + lo'.toNat) % 2 ^ w) := by ring
    _ = hi.toNat * 2 ^ w + lo.toNat + (hi'.toNat * 2 ^ w + lo'.toNat) := by
      rw [hparts]
      ring

theorem shiftLeft_one : lo <<< 1 = lo + lo := by
  apply BitVec.eq_of_toNat_eq
  rw [BitVec.toNat_shiftLeft,BitVec.toNat_add,Nat.shiftLeft_eq,pow_one,Nat.mul_two]

/-- A word overflows when it is doubled if its top bit is set. -/
theorem add_self_lt_iff (hw : 0 < w) : lo + lo < lo ↔ lo.msb = true := by
  have hlt := lo.isLt
  have hpow : 2 ^ w = 2 * 2 ^ (w - 1) := by
    rw [← pow_succ',Nat.sub_add_cancel hw]
  rw [BitVec.lt_def,BitVec.toNat_add,BitVec.msb_eq_decide,decide_eq_true_eq]
  rcases Nat.lt_or_ge (lo.toNat + lo.toNat) (2 ^ w) with hfits | hover
  · rw [Nat.mod_eq_of_lt hfits]
    omega
  · rw [Nat.mod_eq_sub_mod hover,Nat.mod_eq_of_lt (by omega)]
    omega

theorem append_double (hw : 0 < w) :
    doubleHi hi lo ++ lo <<< 1 = hi ++ lo + (hi ++ lo) := by
  have hhi : doubleHi hi lo = addHi hi lo hi lo := by
    have hdisjoint : hi <<< 1 &&& 1#w = 0#w := by
      ext i hi
      simp only [BitVec.getElem_and,BitVec.getElem_shiftLeft,BitVec.getElem_one,
        BitVec.getElem_zero]
      by_cases h : i = 0 <;> simp [h]
    unfold doubleHi addHi
    rw [← BitVec.add_eq_or_of_and_eq_zero _ _ hdisjoint,shiftLeft_one]
    simp only [add_self_lt_iff lo hw]
    split
    · exact add_right_comm hi hi 1#w
    · rfl
  rw [hhi,shiftLeft_one,append_add]

theorem append_neg (hw : 0 < w) : negHi hi lo ++ (~~~lo + 1#w) = -(hi ++ lo) := by
  have hone : (1#w).toNat = 1 := BitVec.toNat_one hw
  have hhi : negHi hi lo = addHi (~~~hi) (~~~lo) 0#w 1#w := by
    have hzero : ~~~lo + 1#w < 1#w ↔ ~~~lo + 1#w = 0#w := by
      rw [BitVec.lt_def,hone,← BitVec.toNat_inj,BitVec.toNat_ofNat,Nat.zero_mod]
      exact Nat.lt_one_iff
    unfold negHi addHi
    simp only [hzero,BitVec.add_zero]
  have happend : 0#w ++ 1#w = 1#(w + w) := by
    apply BitVec.eq_of_toNat_eq
    rw [toNat_append,hone,BitVec.toNat_one (Nat.add_pos_left hw w),BitVec.toNat_ofNat,
      Nat.zero_mod,Nat.zero_mul]
  rw [hhi,append_add,happend,← BitVec.not_append,BitVec.neg_eq_not_add]

end DoubleWord
