import NachOS.Decimal
import NachOS.ExceptionHandler

/-! Reading and printing numbers on the console (`SysReadNum` and `SysPrintNum` of
userprog/ksyscall.h). -/
namespace NachOS

open StateMachine hiding Machine
open Memory Decimal

/-- From index `i` on the buffer holds these characters. -/
def At (b : Buffer) : ℕ → List Byte → Prop
  | _, [] => True
  | i, c :: cs => b i = c ∧ At b (i + 1) cs

theorem at_append {b : Buffer} {i : ℕ} {cs ds : List Byte} :
    At b i (cs ++ ds) ↔ At b i cs ∧ At b (i + cs.length) ds := by
  induction cs generalizing i with
  | nil => simp [At]
  | cons c cs ih =>
    rw [List.cons_append,At,ih,At,List.length_cons,and_assoc,
      show i + 1 + cs.length = i + (cs.length + 1) by omega]

theorem at_congr {a b : Buffer} {i : ℕ} {cs : List Byte}
    (h : ∀ j, i ≤ j → j < i + cs.length → a j = b j) : At a i cs ↔ At b i cs := by
  induction cs generalizing i with
  | nil => exact Iff.rfl
  | cons c cs ih =>
    rw [List.length_cons] at h
    rw [At,At,h i (by omega) (by omega),ih fun j h₁ h₂ => h j (by omega) (by omega)]

theorem At.getElem {b : Buffer} {i : ℕ} {cs : List Byte} {j : ℕ} {c : Byte} (h : At b i cs)
    (hj : cs[j]? = some c) : b (i + j) = c := by
  induction cs generalizing i j with
  | nil => simp at hj
  | cons d cs ih =>
    cases j with
    | zero =>
      cases hj
      exact h.1
    | succ j =>
      rw [List.getElem?_cons_succ] at hj
      rw [show i + (j + 1) = i + 1 + j by omega]
      exact ih h.2 hj

theorem at_of_getD {b : Buffer} {i : ℕ} {cs : List Byte}
    (h : ∀ j, j < cs.length → b (i + j) = cs.getD j 0#8) : At b i cs := by
  induction cs generalizing i with
  | nil => trivial
  | cons c cs ih =>
    refine ⟨h 0 (by simp),ih fun j hj => ?_⟩
    rw [show i + 1 + j = i + (j + 1) by omega]
    simpa using h (j + 1) (by simpa using hj)

namespace Kernel

variable {k : Kernel} {b : Buffer} {i n : ℕ} {line rest : List Byte} {e : Byte}

/-! Printing. -/

def printed (k : Kernel) (p : List Byte) : Kernel :=
  { k with console := { k.console with output := k.console.output ++ p } }

@[simp] theorem printed_nil (k : Kernel) : k.printed [] = k := by simp [printed]

theorem printString_of_at {p : List Byte} (hb : At b i (p ++ [0#8])) (hp : 0#8 ∉ p)
    (hn : p.length < n) : k.printString b i n = .ok (k.printed p) := by
  induction p generalizing k i n with
  | nil =>
    obtain ⟨n,rfl⟩ : ∃ m, n = m + 1 := ⟨n - 1,by omega⟩
    have hz : b i = 0#8 := hb.1
    simp [printString,hz,pure,Except.pure]
  | cons c p ih =>
    obtain ⟨n,rfl⟩ : ∃ m, n = m + 1 := ⟨n - 1,by omega⟩
    obtain ⟨hc,hb⟩ := hb
    rw [List.mem_cons,not_or] at hp
    have hne : ¬ b i = 0#8 := fun hz => hp.1 (hz.symm.trans hc)
    rw [printString,if_neg hne,ih hb hp.2 (by simpa using hn),hc]
    simp [printed,SysPrintChar,PutChar]

theorem text_at (s : String) : At (text s) 0 (bytes s ++ [0#8]) := by
  refine at_of_getD fun j hj => ?_
  rw [Nat.zero_add,text]
  by_cases h : j < (bytes s).length
  · rw [List.getD_append _ _ _ _ h]
  · rw [List.length_append,List.length_singleton] at hj
    obtain rfl : j = (bytes s).length := by omega
    simp

theorem printText_eq {s : String} (hs : 0#8 ∉ bytes s) (k : Kernel) :
    k.printText s = .ok (k.printed (bytes s)) :=
  printString_of_at (text_at s) hs (Nat.lt_succ_self _)

theorem printText_invalid (k : Kernel) :
    k.printText invalid_error = .ok (k.printed (bytes invalid_error)) :=
  printText_eq (by decide) k

theorem countDigits_eq (m : ℕ) : countDigits m = (Nat.digits 10 m).length := by
  induction m using Nat.strongRecOn with
  | _ m ih =>
    by_cases hm : m = 0
    · simp [hm,countDigits]
    · have hdigits : Nat.digits 10 m = m % 10 :: Nat.digits 10 (m / 10) :=
        Nat.digits_def' (by omega) (by omega)
      rw [countDigits,if_neg hm,ih (m / 10) (by omega),hdigits,List.length_cons]

theorem putDigits_out {m start j : ℕ} (hj : j < start ∨ start + n ≤ j) :
    putDigits b m start n j = b j := by
  induction n generalizing b m with
  | zero => rfl
  | succ n ih => rw [putDigits,ih (by omega),Function.update_of_ne (by omega)]

theorem putDigits_at (b : Buffer) (m start : ℕ) :
    At (putDigits b m start (countDigits m)) start ((Nat.digits 10 m).reverse.map character) := by
  induction m using Nat.strongRecOn generalizing b with
  | _ m ih =>
    by_cases hm : m = 0
    · simp [hm,At]
    · have hcount : countDigits m = countDigits (m / 10) + 1 := by
        rw [countDigits,if_neg hm]
      rw [hcount,putDigits,digits_of_pos hm,at_append]
      refine ⟨ih (m / 10) (by omega) _,?_,trivial⟩
      rw [List.length_map,List.length_reverse,← countDigits_eq,putDigits_out (by omega),
        Function.update_self]
      rfl

theorem digits_at {m start : ℕ} (hm : m ≠ 0) (hb : b (start + countDigits m) = 0#8) :
    At (putDigits b m start (countDigits m)) start (digits m ++ [0#8]) := by
  have hlength : (digits m).length = countDigits m := by
    rw [digits,if_neg hm,List.length_map,List.length_reverse,countDigits_eq]
  rw [at_append,hlength]
  refine ⟨?_,?_,trivial⟩
  · rw [digits,if_neg hm]
    exact putDigits_at b m start
  · rw [putDigits_out (by omega),hb]

theorem numeral_min : numeral INT_MIN = bytes "-2147483648" := by
  norm_num [numeral,digits,character]
  rfl

/-- What `SysPrintNum` sends to the console. -/
theorem SysPrintNum_eq {number : ℤ} (h₁ : -2 ^ 31 ≤ number) (h₂ : number < 2 ^ 31) (k : Kernel) :
    k.SysPrintNum number = .ok (k.printed (numeral number)) := by
  have hzero : 0#8 ∉ numeral number := notMem_numeral (by decide) (by decide) number
  have hlength : (numeral number).length < 12 := Nat.lt_succ_of_le (length_numeral_le h₁ h₂)
  have hprint {b : Buffer} (hb : At b 0 (numeral number ++ [0#8])) :
      k.SysPrintString b 12 = .ok (k.printed (numeral number)) :=
    printString_of_at hb hzero hlength
  unfold SysPrintNum
  dsimp only
  by_cases h₀ : number = 0
  · rw [if_pos h₀]
    subst h₀
    exact hprint ⟨rfl,rfl,trivial⟩
  by_cases hmin : number = INT_MIN
  · rw [if_neg h₀,if_pos hmin]
    subst hmin
    refine hprint ?_
    rw [numeral_min]
    exact text_at _
  by_cases hneg : number < 0
  · rw [if_neg h₀,if_neg hmin,if_pos hneg]
    have hout : putDigits (Function.update (fun _ => 0#8) 0 45#8) number.natAbs 1
        (countDigits number.natAbs) 0 = 45#8 := by
      rw [putDigits_out (by omega),Function.update_self]
    refine hprint ?_
    rw [numeral,if_pos hneg]
    refine ⟨hout,digits_at (by omega) ?_⟩
    rw [Function.update_of_ne (by omega)]
  · rw [if_neg h₀,if_neg hmin,if_neg hneg]
    refine hprint ?_
    rw [numeral,if_neg hneg]
    exact digits_at (by omega) rfl

/-! Reading a line. -/

/-- `rest` is what the console still has to read. -/
def consumed (k : Kernel) (rest : List Byte) : Kernel :=
  { k with console := { k.console with input := rest, ended := false } }

theorem SysReadChar_eq {c : Byte} (hended : k.console.ended = false)
    (hinput : k.console.input = c :: rest) (hc : c ≠ EOF) :
    k.SysReadChar = .ok (c,k.consumed rest) := by
  have hne : (c == EOF) = false := by simpa using hc
  simp [SysReadChar,GetChar,hended,hinput,hne,consumed]

/-- After the byte that counts as end of file nothing more can be read. -/
theorem SysReadChar_EOF (hended : k.console.ended = false)
    (hinput : k.console.input = EOF :: rest) :
    ∃ k', k.SysReadChar = .ok (EOF,k') ∧ k'.SysReadChar = .error .blocked := by
  refine ⟨{ k with console := { k.console with input := rest, ended := true } },?_,?_⟩
  · simp [SysReadChar,GetChar,hended,hinput]
  · simp [SysReadChar,GetChar]

/-- A character that ends a line. -/
abbrev Terminator (c : Byte) : Prop := c = 0#8 ∨ c = 10#8

theorem ne_EOF_of_terminator (he : Terminator e) : e ≠ EOF := by
  rcases he with rfl | rfl <;> decide

/-- Characters that neither end a line nor count as end of file go to the buffer. -/
theorem readString_append (hended : k.console.ended = false)
    (hinput : k.console.input = line ++ rest) (hline : ∀ c ∈ line, ¬ Terminator c)
    (hEOF : EOF ∉ line) (n : ℕ) :
    ∃ b', k.readString b i (line.length + n) =
        (k.consumed rest).readString b' (i + line.length) n ∧ At b' i line ∧
      ∀ j, j < i → b' j = b j := by
  induction line generalizing k b i with
  | nil =>
    have hk : k.consumed rest = k := by
      rw [consumed,← hended,← hinput.trans (List.nil_append rest)]
    rw [hk]
    exact ⟨b,by simp,trivial,fun _ _ => rfl⟩
  | cons c line ih =>
    obtain ⟨hc,hline⟩ := List.forall_mem_cons.mp hline
    rw [List.mem_cons,not_or] at hEOF
    rw [List.cons_append] at hinput
    have hread := SysReadChar_eq hended hinput (Ne.symm hEOF.1)
    obtain ⟨b',hrest,hat,hkeep⟩ := ih (k := k.consumed (line ++ rest))
      (b := Function.update b i c) (i := i + 1) rfl rfl hline hEOF.2
    refine ⟨b',?_,⟨?_,hat⟩,fun j hj => ?_⟩
    · rw [List.length_cons,show line.length + 1 + n = line.length + n + 1 by omega,
        show i + (line.length + 1) = i + 1 + line.length by omega]
      simp only [readString,hread,bind,Except.bind,if_neg hc,hrest]
      rfl
    · rw [hkeep i (by omega),Function.update_self]
    · rw [hkeep j (by omega),Function.update_of_ne (by omega)]

/-- A line that is short enough is read whole, and ends with a zero in the buffer. -/
theorem readString_line (hended : k.console.ended = false)
    (hinput : k.console.input = line ++ e :: rest) (hline : ∀ c ∈ line, ¬ Terminator c)
    (hEOF : EOF ∉ line) (he : Terminator e) (hn : line.length < n) :
    ∃ b', k.readString b i n = .ok (b',k.consumed rest) ∧ At b' i (line ++ [0#8]) ∧
      ∀ j, j < i → b' j = b j := by
  obtain ⟨m,rfl⟩ : ∃ m, n = line.length + (m + 1) := ⟨n - line.length - 1,by omega⟩
  obtain ⟨b',hrun,hat,hkeep⟩ := readString_append (b := b) (i := i) hended hinput hline hEOF (m + 1)
  have hread : (k.consumed (e :: rest)).SysReadChar = .ok (e,k.consumed rest) :=
    SysReadChar_eq rfl rfl (ne_EOF_of_terminator he)
  refine ⟨Function.update b' (i + line.length) 0#8,?_,at_append.mpr ⟨?_,?_,trivial⟩,?_⟩
  · rw [hrun]
    simp only [readString,hread,bind,Except.bind,if_pos he]
    rfl
  · refine (at_congr fun j _ hj => ?_).mpr hat
    exact Function.update_of_ne (by omega) _ _
  · exact Function.update_self ..
  · intro j hj
    rw [Function.update_of_ne (by omega),hkeep j hj]

theorem lineLength_line (hb : At b i (line ++ [0#8])) (hline : ∀ c ∈ line, ¬ Terminator c)
    (hn : line.length < n) : lineLength b i n = .ok (i + line.length) := by
  induction line generalizing i n with
  | nil =>
    obtain ⟨n,rfl⟩ : ∃ m, n = m + 1 := ⟨n - 1,by omega⟩
    have hz : b i = 0#8 := hb.1
    simp [lineLength,hz,pure,Except.pure]
  | cons c line ih =>
    obtain ⟨n,rfl⟩ : ∃ m, n = m + 1 := ⟨n - 1,by omega⟩
    obtain ⟨hc,hline⟩ := List.forall_mem_cons.mp hline
    obtain ⟨hbc,hb⟩ := hb
    have hgo : ¬ Terminator (b i) := by rwa [hbc]
    rw [lineLength,if_neg hgo,ih hb hline (by simpa using hn),List.length_cons]
    congr 1
    omega

/-- A longer line fills the buffer, unless a byte that counts as end of file stops the
console before. -/
theorem readString_long (hended : k.console.ended = false)
    (hinput : k.console.input = line ++ rest) (hline : ∀ c ∈ line, ¬ Terminator c)
    (hlong : n ≤ line.length ∨ EOF ∈ line) :
    k.readString b i n = .error .blocked ∨
      ∃ b' k', k.readString b i n = .ok (b',k') ∧ (∀ j, j < i → b' j = b j) ∧
        ∀ j, i ≤ j → j < i + n → ¬ Terminator (b' j) := by
  induction n generalizing k b i line with
  | zero => exact Or.inr ⟨b,k,rfl,fun _ _ => rfl,by omega⟩
  | succ n ih =>
    cases line with
    | nil => simp at hlong
    | cons c line =>
      obtain ⟨hc,hline⟩ := List.forall_mem_cons.mp hline
      rw [List.cons_append] at hinput
      by_cases hEOF : c = EOF
      · subst hEOF
        obtain ⟨k₁,hread,hstop⟩ := SysReadChar_EOF hended hinput
        cases n with
        | zero =>
          refine Or.inr ⟨Function.update b i EOF,k₁,?_,fun j hj => ?_,fun j hij hj => ?_⟩
          · simp only [readString,hread,bind,Except.bind,if_neg hc]
            rfl
          · exact Function.update_of_ne (by omega) _ _
          · obtain rfl : j = i := by omega
            rwa [Function.update_self]
        | succ n =>
          refine Or.inl ?_
          simp only [readString,hread,bind,Except.bind,if_neg hc,hstop]
      · have hread := SysReadChar_eq hended hinput hEOF
        have hlong : n ≤ line.length ∨ EOF ∈ line := by
          rcases hlong with hlong | hlong
          · exact Or.inl (by simpa using hlong)
          · exact Or.inr ((List.mem_cons.mp hlong).resolve_left (Ne.symm hEOF))
        have hgo : k.readString b i (n + 1) =
            (k.consumed (line ++ rest)).readString (Function.update b i c) (i + 1) n := by
          simp only [readString,hread,bind,Except.bind,if_neg hc]
        rw [hgo]
        rcases ih (k := k.consumed (line ++ rest)) (b := Function.update b i c) (i := i + 1) rfl rfl
          hline hlong with hstop | ⟨b',k',hrun,hkeep,hfull⟩
        · exact Or.inl hstop
        · refine Or.inr ⟨b',k',hrun,fun j hj => ?_,fun j hij hj => ?_⟩
          · rw [hkeep j (by omega),Function.update_of_ne (by omega)]
          · by_cases hji : j = i
            · rwa [hji,hkeep i (by omega),Function.update_self]
            · exact hfull j (by omega) (by omega)

theorem lineLength_full (hfull : ∀ j, i ≤ j → j < i + n → ¬ Terminator (b j)) :
    lineLength b i n = .error .undefined := by
  induction n generalizing i with
  | zero => rfl
  | succ n ih =>
    rw [lineLength,if_neg (hfull i le_rfl (by omega)),
      ih fun j hij hj => hfull j (by omega) (by omega)]

/-! The digits. -/

/-- The loop with the arithmetic of `int`, in which an overflow is undefined behaviour. -/
def parseInRange (k : Kernel) (buffer : Buffer) (negative : Bool) (number : ℤ) (i : ℕ) :
    ℕ → Except Fault (ℤ × Kernel)
  | 0 => do
    inBounds (-2 ^ 31 ≤ -number)
    return (if negative then -number else number,k)
  | n + 1 => do
    let c := (buffer i).toInt
    if c < 48 ∨ c > 57 then
      return (0,← k.printText invalid_error)
    else if number > 214748364 ∨ number = 214748364 ∧ c > 55 then
      if number = 214748364 ∧ c = 56 ∧ negative = true then
        return (INT_MIN,k)
      else
        return (0,← k.printText overflow_error)
    else
      inBounds (-2 ^ 31 ≤ number * 10 ∧ number * 10 < 2 ^ 31)
      inBounds (-2 ^ 31 ≤ number * 10 + (c - 48) ∧ number * 10 + (c - 48) < 2 ^ 31)
      parseInRange k buffer negative (number * 10 + (c - 48)) (i + 1) n

/-- No line makes the accumulator leave the range of an `int`. -/
theorem parseInRange_eq (k : Kernel) (b : Buffer) (negative : Bool) {number : ℤ} (i n : ℕ)
    (h₁ : 0 ≤ number) (h₂ : number < 2 ^ 31) :
    k.parseInRange b negative number i n = k.parse b negative number i n := by
  induction n generalizing number i with
  | zero =>
    have hrange : -2 ^ 31 ≤ -number := by omega
    simp only [parseInRange,parse,inBounds_of hrange,bind,Except.bind]
  | succ n ih =>
    simp only [parseInRange,parse]
    split
    · rfl
    · rename_i hc
      split
      · rfl
      · rename_i hsmall
        rw [not_or] at hc hsmall
        have htimes : -2 ^ 31 ≤ number * 10 ∧ number * 10 < 2 ^ 31 := by omega
        have hsum : -2 ^ 31 ≤ number * 10 + ((b i).toInt - 48) ∧
            number * 10 + ((b i).toInt - 48) < 2 ^ 31 := by omega
        rw [inBounds_of htimes,inBounds_of hsum,← ih (i + 1) (by omega) hsum.2]
        rfl

section Parse

variable {negative : Bool} {number : ℤ}

theorem parse_bad (hc : ¬ IsDigit (b i)) :
    k.parse b negative number i (n + 1) = .ok (0,k.printed (bytes invalid_error)) := by
  have hbad : (b i).toInt < 48 ∨ (b i).toInt > 57 := by
    unfold IsDigit at hc
    omega
  simp only [parse,if_pos hbad,printText_invalid,bind,Except.bind]
  rfl

theorem parse_step (hc : IsDigit (b i))
    (hsmall : ¬ (number > 214748364 ∨ number = 214748364 ∧ digit (b i) > 7)) :
    k.parse b negative number i (n + 1) =
      k.parse b negative (number * 10 + digit (b i)) (i + 1) n := by
  unfold IsDigit at hc
  unfold digit at hsmall
  have hgood : ¬ ((b i).toInt < 48 ∨ (b i).toInt > 57) := by omega
  have hsmall : ¬ (number > 214748364 ∨ number = 214748364 ∧ (b i).toInt > 55) := by omega
  simp only [parse,if_neg hgood,if_neg hsmall]
  rfl

theorem parse_overflow (hc : IsDigit (b i))
    (hbig : number > 214748364 ∨ number = 214748364 ∧ digit (b i) > 7) :
    k.parse b negative number i (n + 1) =
      if number = 214748364 ∧ digit (b i) = 8 ∧ negative = true then .ok (INT_MIN,k)
      else .ok (0,k.printed (bytes overflow_error)) := by
  unfold IsDigit at hc
  unfold digit at hbig
  have hgood : ¬ ((b i).toInt < 48 ∨ (b i).toInt > 57) := by omega
  have hbig : number > 214748364 ∨ number = 214748364 ∧ (b i).toInt > 55 := by omega
  have height : digit (b i) = 8 ↔ (b i).toInt = 56 := by
    unfold digit
    omega
  simp only [parse,if_neg hgood,if_pos hbig,height,printText_eq (s := overflow_error) (by decide),
    bind,Except.bind]
  rfl

/-- Digits whose value fits are read as that value.  The value `2 ^ 31` of a negative number
is returned by the test for overflow, at the last digit. -/
theorem parse_numeral {ds : List Byte} (hb : At b i ds) (hds : ∀ c ∈ ds, IsDigit c)
    (hnumber : 0 ≤ number)
    (hfits : value number ds < 2 ^ 31 ∨ negative = true ∧ value number ds = 2 ^ 31) :
    k.parse b negative number i ds.length =
      .ok (if negative then -value number ds else value number ds,k) := by
  induction ds generalizing number i with
  | nil => rfl
  | cons c ds ih =>
    obtain ⟨rfl,hb⟩ := hb
    obtain ⟨hc,hds⟩ := List.forall_mem_cons.mp hds
    have hdigit : 0 ≤ digit (b i) ∧ digit (b i) ≤ 9 := by
      unfold IsDigit at hc
      unfold digit
      omega
    have hle := le_value (n := number * 10 + digit (b i)) (by omega) hds
    rw [value_cons] at hfits ⊢
    rw [List.length_cons]
    by_cases hbig : number > 214748364 ∨ number = 214748364 ∧ digit (b i) > 7
    · obtain ⟨hneg,hvalue⟩ : negative = true ∧
          value (number * 10 + digit (b i)) ds = 2 ^ 31 := by
        rcases hfits with hfits | hfits
        · omega
        · exact hfits
      have height : number = 214748364 ∧ digit (b i) = 8 := by omega
      rw [parse_overflow hc hbig,if_pos ⟨height.1,height.2,hneg⟩,hvalue,hneg]
      rfl
    · rw [parse_step hc hbig]
      exact ih hb hds (by omega) hfits

/-- Everything else is answered with 0.  A negative number of at most ten digits is at its
last digit when the test for overflow lets it pass. -/
theorem parse_rejects {m : ℕ} {cs : List Byte} (hb : At b i cs) (hnumber : 0 ≤ number)
    (hlt : number < 10 ^ m) (hrange : number < 2 ^ 31)
    (hlength : negative = true → m + cs.length ≤ 10)
    (hnot : ¬ ((∀ c ∈ cs, IsDigit c) ∧
      (value number cs < 2 ^ 31 ∨ negative = true ∧ value number cs = 2 ^ 31))) :
    ∃ p, k.parse b negative number i cs.length = .ok (0,k.printed p) := by
  induction cs generalizing number i m with
  | nil => exact absurd ⟨by simp,Or.inl hrange⟩ hnot
  | cons c cs ih =>
    obtain ⟨rfl,hb⟩ := hb
    rw [List.length_cons] at hlength ⊢
    by_cases hc : IsDigit (b i)
    · have hdigit : 0 ≤ digit (b i) ∧ digit (b i) ≤ 9 := by
        unfold IsDigit at hc
        unfold digit
        omega
      rw [List.forall_mem_cons,value_cons] at hnot
      by_cases hbig : number > 214748364 ∨ number = 214748364 ∧ digit (b i) > 7
      · rw [parse_overflow hc hbig]
        split
        · rename_i hmin
          have hnine : 9 ≤ m := by
            by_contra hm
            have hpow : (10 : ℤ) ^ m ≤ 10 ^ 8 := pow_le_pow_right₀ (by norm_num) (by omega)
            omega
          have hnil : cs = [] := List.length_eq_zero_iff.mp (by have := hlength hmin.2.2; omega)
          subst hnil
          refine absurd ⟨⟨hc,by simp⟩,Or.inr ⟨hmin.2.2,?_⟩⟩ hnot
          rw [value_nil,hmin.1,hmin.2.1]
          norm_num
        · exact ⟨_,rfl⟩
      · rw [parse_step hc hbig]
        refine ih (m := m + 1) hb (by omega) ?_ (by omega) (fun hneg => ?_) fun hall => ?_
        · rw [pow_succ]
          omega
        · have := hlength hneg
          omega
        · exact hnot ⟨⟨hc,hall.1⟩,hall.2⟩
    · exact ⟨_,parse_bad hc⟩

end Parse

/-! The whole call. -/

/-- The console has a line to read, up to and including the character `e`. -/
structure HasLine (k : Kernel) (line : List Byte) (e : Byte) (rest : List Byte) : Prop where
  ended : k.console.ended = false
  input : k.console.input = line ++ e :: rest
  line : ∀ c ∈ line, ¬ Terminator c
  terminator : Terminator e

/-- The kernel after the line was read into a local array. -/
def afterLine (k : Kernel) (rest : List Byte) : Kernel := k.alloc.2.consumed rest

theorem HasLine.read (h : k.HasLine line e rest) (hEOF : EOF ∉ line) (hlength : line.length ≤ 11) :
    ∃ b, At b 0 (line ++ [0#8]) ∧
      k.alloc.2.SysReadString k.alloc.1 12 = .ok (b,k.afterLine rest) ∧
      lineLength b 0 12 = .ok line.length := by
  obtain ⟨b,hrun,hb,-⟩ := readString_line (k := k.alloc.2) (b := k.alloc.1) (i := 0) (n := 12)
    h.ended h.input h.line hEOF h.terminator (by omega)
  have hlen := lineLength_line hb h.line (n := 12) (by omega)
  rw [Nat.zero_add] at hlen
  exact ⟨b,hb,hrun,hlen⟩

theorem HasLine.readNum (h : k.HasLine line e rest) (hEOF : EOF ∉ line)
    (hlength : line.length ≤ 11) (hne : line ≠ []) :
    ∃ b, At b 0 line ∧ k.SysReadNum =
      (k.afterLine rest).parse b (b 0 == 45#8) 0 (if b 0 == 45#8 then 1 else 0)
        (line.length - if b 0 == 45#8 then 1 else 0) := by
  obtain ⟨b,hb,hrun,hlen⟩ := h.read hEOF hlength
  have hpos : ¬ line.length = 0 := by simpa using hne
  refine ⟨b,(at_append.mp hb).1,?_⟩
  unfold SysReadNum
  simp only [hrun,hlen,bind,Except.bind,if_neg hpos]

theorem HasLine.readNum_plain {c : Byte} {cs : List Byte} (h : k.HasLine (c :: cs) e rest)
    (hEOF : EOF ∉ c :: cs) (hlength : (c :: cs).length ≤ 11) (hc : c ≠ minus) :
    ∃ b, At b 0 (c :: cs) ∧
      k.SysReadNum = (k.afterLine rest).parse b false 0 0 (c :: cs).length := by
  obtain ⟨b,hb,hrun⟩ := h.readNum hEOF hlength (List.cons_ne_nil c cs)
  have hfirst : (b 0 == 45#8) = false := by
    rw [hb.1]
    simpa using hc
  refine ⟨b,hb,?_⟩
  rw [hrun,hfirst]
  rfl

theorem HasLine.readNum_minus {cs : List Byte} (h : k.HasLine (minus :: cs) e rest)
    (hEOF : EOF ∉ minus :: cs) (hlength : (minus :: cs).length ≤ 11) :
    ∃ b, At b 1 cs ∧ k.SysReadNum = (k.afterLine rest).parse b true 0 1 cs.length := by
  obtain ⟨b,hb,hrun⟩ := h.readNum hEOF hlength (List.cons_ne_nil minus cs)
  have hfirst : (b 0 == 45#8) = true := by
    rw [hb.1]
    rfl
  refine ⟨b,hb.2,?_⟩
  rw [hrun,hfirst]
  rfl

theorem HasLine.readNum_numeral {v : ℤ} (h : k.HasLine line e rest) (hEOF : EOF ∉ line)
    (hlength : line.length ≤ 11) (hline : Numeral line v) (h₁ : -2 ^ 31 ≤ v) (h₂ : v < 2 ^ 31) :
    k.SysReadNum = .ok (v,k.afterLine rest) := by
  obtain ⟨ds,hne,hds,⟨rfl,rfl⟩ | ⟨rfl,rfl⟩⟩ := hline
  · cases line with
    | nil => exact absurd rfl hne
    | cons c cs =>
      have hc : c ≠ minus := by
        rintro rfl
        exact minus_not_digit (hds minus List.mem_cons_self)
      obtain ⟨b,hb,hrun⟩ := h.readNum_plain hEOF hlength hc
      rw [hrun,parse_numeral hb hds le_rfl (Or.inl h₂)]
      rfl
  · obtain ⟨b,hb,hrun⟩ := h.readNum_minus hEOF hlength
    have hfits : value 0 ds < 2 ^ 31 ∨ value 0 ds = 2 ^ 31 := by omega
    rw [hrun,parse_numeral hb hds le_rfl (by simpa using hfits)]
    rfl

theorem HasLine.readNum_other (h : k.HasLine line e rest) (hEOF : EOF ∉ line)
    (hlength : line.length ≤ 11) (hne : line ≠ [])
    (hline : ∀ v, Numeral line v → ¬ (-2 ^ 31 ≤ v ∧ v < 2 ^ 31)) :
    ∃ p, k.SysReadNum = .ok (0,(k.afterLine rest).printed p) := by
  cases line with
  | nil => exact absurd rfl hne
  | cons c cs =>
    by_cases hc : c = minus
    · subst hc
      obtain ⟨b,hb,hrun⟩ := h.readNum_minus hEOF hlength
      rw [List.length_cons] at hlength
      rw [hrun]
      by_cases hcs : cs = []
      · subst hcs
        exact ⟨[],by simp [parse,pure,Except.pure]⟩
      · refine parse_rejects (m := 0) hb le_rfl (by norm_num) (by norm_num) (by omega) ?_
        rintro ⟨hds,hfits⟩
        have hle := le_value le_rfl hds
        refine hline (-value 0 cs) ⟨cs,hcs,hds,Or.inr ⟨rfl,rfl⟩⟩ ?_
        omega
    · obtain ⟨b,hb,hrun⟩ := h.readNum_plain hEOF hlength hc
      rw [hrun]
      refine parse_rejects (m := 0) hb le_rfl (by norm_num) (by norm_num) (by simp) ?_
      rintro ⟨hds,hfits⟩
      have hle := le_value le_rfl hds
      refine hline (value 0 (c :: cs)) ⟨c :: cs,hne,hds,Or.inl ⟨rfl,rfl⟩⟩ ?_
      simp only [Bool.false_eq_true,false_and,or_false] at hfits
      omega

/-- A line of at most 11 characters is read whole, whatever it is. -/
theorem HasLine.readNum_ok (h : k.HasLine line e rest) (hEOF : EOF ∉ line)
    (hlength : line.length ≤ 11) :
    ∃ v p, k.SysReadNum = .ok (v,(k.afterLine rest).printed p) := by
  by_cases hne : line = []
  · subst hne
    obtain ⟨b,-,hrun,hlen⟩ := h.read hEOF hlength
    refine ⟨INT_MIN,bytes invalid_error,?_⟩
    unfold SysReadNum
    simp only [hrun,hlen,List.length_nil,bind,Except.bind,printText_invalid]
    rfl
  by_cases hv : ∃ v, Numeral line v ∧ -2 ^ 31 ≤ v ∧ v < 2 ^ 31
  · obtain ⟨v,hline,h₁,h₂⟩ := hv
    exact ⟨v,[],by rw [h.readNum_numeral hEOF hlength hline h₁ h₂,printed_nil]⟩
  · obtain ⟨p,hrun⟩ := h.readNum_other hEOF hlength hne fun v hline hrange => hv ⟨v,hline,hrange⟩
    exact ⟨0,p,hrun⟩

/-- `SysPrintNum` prints the canonical numeral of every number, and `SysReadNum` returns the
number when it reads that numeral and the end of the line, with nothing else changed on the
console. -/
theorem readNum_undoes_printNum (n : BitVec 32) :
    (∀ k : Kernel, k.SysPrintNum n.toInt = .ok (k.printed (numeral n.toInt))) ∧
    (minus ∈ numeral n.toInt ↔ n.toInt < 0) ∧
    (∀ ds, digits n.toInt.natAbs = character 0 :: ds → n.toInt = 0) ∧
    ∀ (k : Kernel) (rest : List Byte), k.console.ended = false →
      k.console.input = numeral n.toInt ++ 10#8 :: rest →
      ∃ k', k.SysReadNum = .ok (n.toInt,k') ∧ k'.console = { k.console with input := rest } := by
  obtain ⟨h₁,h₂⟩ : -2 ^ 31 ≤ n.toInt ∧ n.toInt < 2 ^ 31 :=
    ⟨BitVec.le_toInt n,BitVec.toInt_lt⟩
  refine ⟨SysPrintNum_eq h₁ h₂,minus_mem_numeral _,fun ds hds => ?_,fun k rest hended hinput => ?_⟩
  · have := digits_head _ hds
    omega
  · have hline : k.HasLine (numeral n.toInt) 10#8 rest := by
      refine ⟨hended,hinput,fun c hc hterm => ?_,Or.inr rfl⟩
      rcases hterm with rfl | rfl
      · exact notMem_numeral (by decide) (by decide) _ hc
      · exact notMem_numeral (by decide) (by decide) _ hc
    have hEOF : EOF ∉ numeral n.toInt := notMem_numeral (by decide) (by decide) _
    refine ⟨k.afterLine rest,?_,?_⟩
    · exact hline.readNum_numeral hEOF (length_numeral_le h₁ h₂) (numeral_spells _) h₁ h₂
    · simp [afterLine,consumed,alloc,hended]

/-- A line is read safely and as a whole just if it leaves room for the zero byte at its end
and has no byte that counts as end of file. -/
theorem readNum_reads_line_iff (h : k.HasLine line e rest) :
    (∃ v k', k.SysReadNum = .ok (v,k') ∧ k'.console.input = rest ∧ k'.console.ended = false) ↔
      line.length ≤ 11 ∧ EOF ∉ line := by
  constructor
  · rintro ⟨v,k',hrun,-⟩
    by_contra hcond
    have hlong : 12 ≤ line.length ∨ EOF ∈ line := by
      rw [not_and_or,not_not,not_le] at hcond
      exact hcond
    obtain ⟨⟨b,k₁⟩,hread,hrest⟩ := bind_ok.mp hrun
    obtain ⟨len,hlen,-⟩ := bind_ok.mp hrest
    have hread : k.alloc.2.readString k.alloc.1 0 12 = .ok (b,k₁) := hread
    rcases readString_long (k := k.alloc.2) (b := k.alloc.1) (i := 0) h.ended h.input h.line
      hlong with hstop | ⟨b',k',hok,-,hfull⟩
    · cases hstop.symm.trans hread
    · cases hok.symm.trans hread
      cases (lineLength_full hfull).symm.trans hlen
  · rintro ⟨hlength,hEOF⟩
    obtain ⟨v,p,hrun⟩ := h.readNum_ok hEOF hlength
    exact ⟨v,_,hrun,rfl,rfl⟩

/-- `exampleKernel` with the line `s` and the letter A behind it on the console. -/
def withLine (s : String) : Kernel :=
  { exampleKernel 78 with console := ⟨bytes s ++ [10#8,65#8],false,[]⟩ }

theorem readNum_reads_line_iff_short : ∃ v k', (withLine "-12x").SysReadNum = .ok (v,k') ∧
    k'.console.input = [65#8] ∧ k'.console.ended = false := by
  have h : (withLine "-12x").HasLine (bytes "-12x") 10#8 [65#8] :=
    ⟨rfl,rfl,by decide,Or.inr rfl⟩
  exact (readNum_reads_line_iff h).mpr (by decide)

/-- Twelve digits leave no zero in the buffer, and the search for it goes on behind its end. -/
theorem readNum_reads_past_buffer :
    (withLine "123456789012").HasLine (bytes "123456789012") 10#8 [65#8] ∧
    (withLine "123456789012").SysReadNum = .error .undefined :=
  ⟨⟨rfl,rfl,by decide,Or.inr rfl⟩,rfl⟩

theorem readNum_undoes_printNum_min : (exampleKernel 78).SysPrintNum (-2147483648) =
      .ok ((exampleKernel 78).printed (numeral (-2147483648))) ∧
    ∃ k', (withLine "-2147483648").SysReadNum = .ok (-2147483648,k') ∧
      k'.console = ⟨[65#8],false,[]⟩ := by
  obtain ⟨hprint,-,-,hread⟩ := readNum_undoes_printNum (BitVec.ofInt 32 (-2147483648))
  have hinput : (withLine "-2147483648").console.input = numeral INT_MIN ++ [10#8,65#8] := by
    rw [numeral_min]
    rfl
  exact ⟨hprint _,hread (withLine "-2147483648") [65#8] rfl hinput⟩

/-- Of the lines of 1 to 11 characters the ones that are numerals in the range of an `int`
are read as their value, with nothing printed, and all others as 0; the accumulator stays in
the range of an `int` for every line. -/
theorem readNum_accepts_numerals (h : k.HasLine line 10#8 rest) (hEOF : EOF ∉ line)
    (hlength : 1 ≤ line.length ∧ line.length ≤ 11) :
    (∀ v, Numeral line v → -2 ^ 31 ≤ v ∧ v < 2 ^ 31 →
      ∃ k', k.SysReadNum = .ok (v,k') ∧ k'.console = { k.console with input := rest }) ∧
    ((∀ v, Numeral line v → ¬ (-2 ^ 31 ≤ v ∧ v < 2 ^ 31)) → ∃ k', k.SysReadNum = .ok (0,k')) ∧
    ∀ (b : Buffer) (negative : Bool) (i n : ℕ),
      k.parseInRange b negative 0 i n = k.parse b negative 0 i n := by
  have hne : line ≠ [] := List.ne_nil_of_length_pos hlength.1
  refine ⟨fun v hline hrange => ?_,fun hline => ?_,fun b negative i n => ?_⟩
  · refine ⟨k.afterLine rest,h.readNum_numeral hEOF hlength.2 hline hrange.1 hrange.2,?_⟩
    simp [afterLine,consumed,alloc,h.ended]
  · obtain ⟨p,hrun⟩ := h.readNum_other hEOF hlength.2 hne hline
    exact ⟨_,hrun⟩
  · exact parseInRange_eq k b negative i n le_rfl (by norm_num)

theorem readNum_accepts_numerals_zeros : ∃ k', (withLine "-007").SysReadNum = .ok (-7,k') ∧
    k'.console = ⟨[65#8],false,[]⟩ := by
  have h : (withLine "-007").HasLine (bytes "-007") 10#8 [65#8] :=
    ⟨rfl,rfl,by decide,Or.inr rfl⟩
  have hline : Numeral (bytes "-007") (-7) :=
    ⟨[48#8,48#8,55#8],by decide,by decide,Or.inr ⟨by decide,by decide⟩⟩
  exact (readNum_accepts_numerals h (by decide) (by decide)).1 (-7) hline (by decide)

end Kernel
end NachOS
