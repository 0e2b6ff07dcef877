import NachOS.UserMemory
import NachOS.MipsInterrupts

/-! The loads and stores of parts of a word: the pairs `SWR`, `SWL` and `LWR`, `LWL` move a word
to and from any address. -/
namespace NachOS

open StateMachine hiding Machine
open Memory Hardware OpCode

namespace Memory

theorem byte_word (b : Buffer) (k : ℕ) {j : ℕ} (hj : j < 4) :
    (word b k).extractLsb' (8 * j) 8 = b (k + j) := by
  apply BitVec.eq_of_getLsbD_eq
  intro l hl
  rw [BitVec.getLsbD_extractLsb',getLsbD_word b k (show 8 * j + l < 32 by omega),decide_eq_true hl,
    show (8 * j + l) / 8 = j by omega,show (8 * j + l) % 8 = l by omega,Bool.true_and]

theorem byte_setWord (b : Buffer) (k : ℕ) (w : BitVec 32) {j : ℕ} (hj : j < 4) :
    setWord b k w (k + j) = w.extractLsb' (8 * j) 8 := by
  rw [setWord,if_pos (by omega),Nat.add_sub_cancel_left]

theorem word_ext {w w' : BitVec 32}
    (h : ∀ j < 4, w.extractLsb' (8 * j) 8 = w'.extractLsb' (8 * j) 8) : w = w' := by
  apply BitVec.eq_of_getLsbD_eq
  intro i hi
  have hbit := congrArg (fun c => c.getLsbD (i % 8)) (h (i / 8) (by omega))
  simp only [BitVec.getLsbD_extractLsb',decide_eq_true (show i % 8 < 8 by omega),Bool.true_and,
    show 8 * (i / 8) + i % 8 = i by omega] at hbit
  exact hbit

end Memory

namespace Translation

variable {t : Translation} {x y : BitVec 32} {writing : Bool} {i p : ℕ}

/-- The bytes of a word are mapped together, in their order. -/
theorem physical_word (h : t.physical x writing = .ok (i,p)) :
    ∃ q, ∀ y : BitVec 32, y.toNat / 4 = x.toNat / 4 →
      t.physical y writing = .ok (i,q + y.toNat % 4) := by
  obtain ⟨j,hindex,h⟩ := bind_ok.mp h
  simp only at h
  split at h
  · cases h
  · next hwrite =>
    split at h
    · cases h
    · next hframe =>
      cases h
      refine ⟨(t.entries i).physicalPage.toNat * PageSize + x.toNat % PageSize / 4 * 4,?_⟩
      intro y hy
      have hpage : y.toNat / PageSize = x.toNat / PageSize := by
        simp only [PageSize]
        omega
      have hoffset : y.toNat % PageSize = x.toNat % PageSize / 4 * 4 + y.toNat % 4 := by
        simp only [PageSize]
        omega
      unfold physical
      rw [hpage,hindex]
      simp only [bind,Except.bind,if_neg hwrite,if_neg hframe,hoffset,Nat.add_assoc]
      rfl

theorem address_offset (hx : t.address x = some p) (hy : t.address y = some p) :
    x.toNat % PageSize = y.toNat % PageSize := by
  have hframe : ∀ z : BitVec 32, t.address z = some p → p % PageSize = z.toNat % PageSize := by
    intro z hz
    unfold address at hz
    split at hz
    · next hphysical =>
      cases hz
      obtain ⟨frame,_,rfl⟩ := physical_frame hphysical
      rw [Nat.mul_comm,Nat.mul_add_mod,Nat.mod_mod]
    · cases hz
  rw [← hframe x hx,hframe y hy]

end Translation

namespace Hardware.Machine

/-! What each instruction does to the bytes. Its address is that of byte 0 of the word that is
moved for `SWR` and `LWR`, that of byte 3 for `SWL` and `LWL`, and `n` is the number of the
addressed byte in its own word. -/

theorem mask_bits {i : ℕ} (hi : i < 32) :
    (0xff#32).getLsbD i = decide (i < 8) ∧ (0xffff#32).getLsbD i = decide (i < 16) ∧
    (0xffffff#32).getLsbD i = decide (i < 24) ∧ (0xffffff00#32).getLsbD i = decide (8 ≤ i) ∧
    (0xffff0000#32).getLsbD i = decide (16 ≤ i) ∧ (0xff000000#32).getLsbD i = decide (24 ≤ i) := by
  revert i
  decide

/-- The byte of `rt` that is stored over byte `j`, if one is. -/
def StoresBytes (off n : ℕ) (rt value result : BitVec 32) : Prop :=
  ∀ j < 4, result.extractLsb' (8 * j) 8 =
    if n ≤ j + off ∧ j + off < n + 4 then rt.extractLsb' (8 * (j + off - n)) 8
    else value.extractLsb' (8 * j) 8

/-- The byte of `value` that is loaded over byte `j`, if one is. -/
def LoadsBytes (off n : ℕ) (old value result : BitVec 32) : Prop :=
  ∀ j < 4, result.extractLsb' (8 * j) 8 =
    if off ≤ j + n ∧ j + n < off + 4 then value.extractLsb' (8 * (j + n - off)) 8
    else old.extractLsb' (8 * j) 8

section Merges

variable {n : ℕ} (hn : n < 4)
include hn

theorem mergeSWR_bytes (value rt : BitVec 32) :
    StoresBytes 0 n rt value (mergeSWR (3 - n) value rt) := by
  intro j hj
  apply BitVec.eq_of_getLsbD_eq
  intro l hl
  obtain ⟨h₁,h₂,h₃,_⟩ := mask_bits (show 8 * j + l < 32 by omega)
  interval_cases n <;> simp only [mergeSWR,BitVec.getLsbD_extractLsb',BitVec.getLsbD_or,
    BitVec.getLsbD_and,BitVec.getLsbD_shiftLeft,h₁,h₂,h₃] <;> grind

theorem mergeSWL_bytes (value rt : BitVec 32) :
    StoresBytes 3 n rt value (mergeSWL (3 - n) value rt) := by
  intro j hj
  apply BitVec.eq_of_getLsbD_eq
  intro l hl
  obtain ⟨h₁,h₂,h₃,h₄,h₅,h₆⟩ := mask_bits (show 8 * j + l < 32 by omega)
  interval_cases n <;> simp only [mergeSWL,BitVec.getLsbD_extractLsb',BitVec.getLsbD_or,
    BitVec.getLsbD_and,BitVec.getLsbD_sshiftRight,h₁,h₂,h₃,h₄,h₅,h₆] <;> grind

theorem mergeLWR_bytes (old value : BitVec 32) :
    LoadsBytes 0 n old value (mergeLWR (3 - n) old value) := by
  intro j hj
  apply BitVec.eq_of_getLsbD_eq
  intro l hl
  obtain ⟨h₁,h₂,h₃,h₄,h₅,h₆⟩ := mask_bits (show 8 * j + l < 32 by omega)
  interval_cases n <;> simp only [mergeLWR,BitVec.getLsbD_extractLsb',BitVec.getLsbD_or,
    BitVec.getLsbD_and,BitVec.getLsbD_sshiftRight,h₁,h₂,h₃,h₄,h₅,h₆] <;> grind

theorem mergeLWL_bytes (old value : BitVec 32) :
    LoadsBytes 3 n old value (mergeLWL (3 - n) old value) := by
  intro j hj
  apply BitVec.eq_of_getLsbD_eq
  intro l hl
  obtain ⟨h₁,h₂,h₃,_⟩ := mask_bits (show 8 * j + l < 32 by omega)
  interval_cases n <;> simp only [mergeLWL,BitVec.getLsbD_extractLsb',BitVec.getLsbD_or,
    BitVec.getLsbD_and,BitVec.getLsbD_shiftLeft,h₁,h₂,h₃] <;> grind

end Merges

/-! The words that are read and written. -/

section Access

variable {m : Machine} {x : BitVec 32} {i q : ℕ}

theorem access_word {writing : Bool} (h : m.translation.physical x writing = .ok (i,q))
    (halign : x.toNat % 4 = 0) : m.access x 4 writing =
      .ok (.ok (q,{ m with translation := m.translation.touch i writing })) := by
  have haligned : ¬ (4 = 4 ∧ x.toNat % 4 ≠ 0 ∨ 4 = 2 ∧ x.toNat % 2 ≠ 0) := by omega
  have hfits := physical_aligned h (by decide) haligned
  rw [access_eq]
  rw [if_neg haligned,check_of (Translation.physical_ok h).1,h]
  simp only [check_of hfits]
  rfl

theorem readMem_word (h : m.translation.physical x false = .ok (i,q)) (halign : x.toNat % 4 = 0) :
    m.readMem x 4 =
      .ok (word m.mainMemory q,{ m with translation := m.translation.touch i false }) := by
  unfold readMem ReadMem
  rw [access_word h halign]
  simp only [bind,Except.bind,pure,Except.pure,int]
  rw [if_neg (by decide),if_neg (by decide),if_pos trivial]
  simp only [BitVec.ofInt_toInt]

theorem writeMem_word (h : m.translation.physical x true = .ok (i,q)) (halign : x.toNat % 4 = 0)
    (v : BitVec 32) : m.writeMem x 4 v = .ok { m with
      mainMemory := setWord m.mainMemory q v,translation := m.translation.touch i true } := by
  have hstore : store m.mainMemory q 4 v.toInt = setWord m.mainMemory q v := by
    funext j
    simp only [store,setWord,BitVec.ofInt_toInt]
  unfold writeMem WriteMem
  rw [access_word h halign]
  simp only [bind,Except.bind,pure,Except.pure,hstore,or_true,if_true]

theorem apply_modify (h : m.translation.physical x true = .ok (i,q)) (halign : x.toNat % 4 = 0)
    (rt : ℕ) (f : BitVec 32 → BitVec 32) :
    ∃ t, t.physical = m.translation.physical ∧ m.apply rt (.modify x f) =
      .ok ⟨⟨m.registers,setWord m.mainMemory q (f (word m.mainMemory q)),t⟩,0,0#32,
        m.registers NextPCReg + 4#32⟩ := by
  have hwrite : (m.translation.touch i false).physical x true = .ok (i,q) := by
    rw [Translation.physical_touch]
    exact h
  refine ⟨(m.translation.touch i false).touch i true,?_,?_⟩
  · rw [Translation.physical_touch,Translation.physical_touch]
  · have hread := readMem_word (Translation.physical_false h) halign
    exact bind_ok.mpr ⟨_,hread,bind_ok.mpr ⟨_,writeMem_word hwrite halign _,rfl⟩⟩

theorem apply_load (h : m.translation.physical x false = .ok (i,q)) (halign : x.toNat % 4 = 0)
    (rt : ℕ) (f : BitVec 32 → BitVec 32) :
    ∃ t, t.physical = m.translation.physical ∧ m.apply rt (.load x 4 f) =
      .ok ⟨{ m with translation := t },rt,f (word m.mainMemory q),
        m.registers NextPCReg + 4#32⟩ := by
  exact ⟨m.translation.touch i false,Translation.physical_touch _ _ _,
    bind_ok.mpr ⟨_,readMem_word h halign,rfl⟩⟩

end Access

/-! The part of an unaligned word that lies in one word of memory. -/

section Parts

variable {t : Translation} {a v w : BitVec 32} {off q : ℕ} {b b₁ b₂ : Buffer}

theorem toNat_add_ofNat (a : BitVec 32) {i : ℕ} (hi : i < 4) :
    (a + BitVec.ofNat 32 i).toNat = (a.toNat + i) % 2 ^ 32 := by
  rw [BitVec.toNat_add,BitVec.toNat_ofNat,Nat.mod_eq_of_lt (show i < 2 ^ 32 by omega)]

/-- The bytes of `v` whose places are in the word around `x` are stored, and nothing else. -/
structure Lays (t : Translation) (a v x : BitVec 32) (b b' : Buffer) : Prop where
  laid : ∀ i < 4, ∀ p, (a + BitVec.ofNat 32 i).toNat / 4 = x.toNat / 4 →
    t.address (a + BitVec.ofNat 32 i) = some p → b' p = v.extractLsb' (8 * i) 8
  kept : ∀ p, (∀ i < 4, (a + BitVec.ofNat 32 i).toNat / 4 = x.toNat / 4 →
    t.address (a + BitVec.ofNat 32 i) ≠ some p) → b' p = b p

theorem lays_setWord (hoff : off < 4)
    (hq : ∀ y : BitVec 32, y.toNat / 4 = (a + BitVec.ofNat 32 off).toNat / 4 →
      t.address y = some (q + y.toNat % 4))
    (hw : StoresBytes off ((a + BitVec.ofNat 32 off).toNat % 4) v (word b q) w) :
    Lays t a v (a + BitVec.ofNat 32 off) b (setWord b q w) := by
  have hx := toNat_add_ofNat a hoff
  constructor
  · intro i hi p hword haddress
    have hi' := toNat_add_ofNat a hi
    have hlt : (a + BitVec.ofNat 32 i).toNat % 4 < 4 := Nat.mod_lt _ (by decide)
    rw [hq _ hword] at haddress
    cases haddress
    rw [byte_setWord b q w hlt,hw _ hlt,if_pos (by omega)]
    congr 2
    omega
  · intro p hp
    by_cases hin : q ≤ p ∧ p < q + 4
    · obtain ⟨j,rfl⟩ := Nat.exists_eq_add_of_le hin.1
      have hj : j < 4 := by omega
      rw [byte_setWord b q w hj,hw j hj]
      split_ifs with hcovered
      · exfalso
        have hi : j + off - (a + BitVec.ofNat 32 off).toNat % 4 < 4 := by omega
        have hi' := toNat_add_ofNat a hi
        refine hp _ hi (by omega) ?_
        rw [hq _ (by omega)]
        congr 2
        omega
      · exact byte_word b q hj
    · exact setWord_out b w (by omega)

/-- Each of the four bytes is in the word around the first or in that around the last. -/
theorem Lays.pair (h₁ : Lays t a v a b b₁) (h₂ : Lays t a v (a + BitVec.ofNat 32 3) b₁ b₂) :
    (∀ i < 4, ∀ p, t.address (a + BitVec.ofNat 32 i) = some p →
      b₂ p = v.extractLsb' (8 * i) 8) ∧
    ∀ p, (∀ i < 4, t.address (a + BitVec.ofNat 32 i) ≠ some p) → b₂ p = b p := by
  constructor
  · intro i hi p haddress
    have hi' := toNat_add_ofNat a hi
    have hlast := toNat_add_ofNat a (show 3 < 4 by decide)
    by_cases hword : (a + BitVec.ofNat 32 i).toNat / 4 = (a + BitVec.ofNat 32 3).toNat / 4
    · exact h₂.laid i hi p hword haddress
    · rw [h₂.kept p,h₁.laid i hi p (by omega) haddress]
      intro j hj hword' haddress'
      have hoffset := Translation.address_offset haddress haddress'
      have hj' := toNat_add_ofNat a hj
      simp only [PageSize] at hoffset
      exact hword (by omega)
  · intro p hp
    rw [h₂.kept p fun i hi _ => hp i hi,h₁.kept p fun i hi _ => hp i hi]

theorem loads_word {old result : BitVec 32} (hoff : off < 4)
    (hq : ∀ y : BitVec 32, y.toNat / 4 = (a + BitVec.ofNat 32 off).toNat / 4 →
      t.address y = some (q + y.toNat % 4))
    (hb : ∀ i < 4, ∀ p, t.address (a + BitVec.ofNat 32 i) = some p →
      b p = w.extractLsb' (8 * i) 8)
    (hr : LoadsBytes off ((a + BitVec.ofNat 32 off).toNat % 4) old (word b q) result) :
    ∀ i < 4, result.extractLsb' (8 * i) 8 =
      if (a + BitVec.ofNat 32 i).toNat / 4 = (a + BitVec.ofNat 32 off).toNat / 4 then
        w.extractLsb' (8 * i) 8
      else old.extractLsb' (8 * i) 8 := by
  intro i hi
  have hx := toNat_add_ofNat a hoff
  have hi' := toNat_add_ofNat a hi
  rw [hr i hi]
  by_cases hword : (a + BitVec.ofNat 32 i).toNat / 4 = (a + BitVec.ofNat 32 off).toNat / 4
  · rw [if_pos (by omega),if_pos hword,byte_word b q (by omega),← hb i hi _ (hq _ hword)]
    congr 1
    omega
  · rw [if_neg (by omega),if_neg hword]

end Parts

/-! The instructions. -/

section Instructions

variable {m m' : Machine} {instr : Instruction} {a v w : BitVec 32} {off : ℕ}

/-- A user program finds the word `w` at `a`, least significant byte first. -/
def Holds (m : Machine) (a w : BitVec 32) : Prop :=
  ∀ i < 4, m.user (a + BitVec.ofNat 32 i) = some (w.extractLsb' (8 * i) 8)

theorem toNat_and_three (x : BitVec 32) : (x &&& 0x3#32).toNat = x.toNat % 4 := by
  rw [BitVec.toNat_and,show (0x3#32).toNat = 2 ^ 2 - 1 from rfl,Nat.and_two_pow_sub_one_eq_mod]

theorem toNat_sub_byte (x : BitVec 32) : (x - (x &&& 0x3#32)).toNat = x.toNat - x.toNat % 4 := by
  have hand := toNat_and_three x
  rw [BitVec.toNat_sub_of_le,hand]
  rw [BitVec.le_def,hand]
  exact Nat.mod_le _ _

/-- The word that is accessed for a byte at `x`. -/
theorem word_around {t : Translation} {x : BitVec 32} {writing : Bool} {i p : ℕ}
    (h : t.physical x writing = .ok (i,p)) :
    ∃ q, t.physical (x - (x &&& 0x3#32)) writing = .ok (i,q) ∧
      (x - (x &&& 0x3#32)).toNat % 4 = 0 ∧
      ∀ y : BitVec 32, y.toNat / 4 = x.toNat / 4 → t.address y = some (q + y.toNat % 4) := by
  obtain ⟨q,hq⟩ := Translation.physical_word h
  have hword := toNat_sub_byte x
  have halign : (x - (x &&& 0x3#32)).toNat % 4 = 0 := by omega
  have hphysical := hq (x - (x &&& 0x3#32)) (by omega)
  rw [halign] at hphysical
  exact ⟨q,hphysical,halign,fun y hy => Translation.address_of_physical (hq y hy)⟩

/-- The instructions that store a part of a word, and the byte that each is given. -/
def StoresFrom (instr : Instruction) (off : ℕ) : Prop :=
  instr.opCode = OP_SWR ∧ off = 0 ∨ instr.opCode = OP_SWL ∧ off = 3

def LoadsFrom (instr : Instruction) (off : ℕ) : Prop :=
  instr.opCode = OP_LWR ∧ off = 0 ∨ instr.opCode = OP_LWL ∧ off = 3

theorem StoresFrom.effect (h : StoresFrom instr off) (o : Operands) :
    ∃ merge, o.effect instr = o.storePart instr merge ∧
      ∀ n < 4, ∀ value rt, StoresBytes off n rt value (merge (3 - n) value rt) := by
  rcases h with ⟨hop,rfl⟩ | ⟨hop,rfl⟩
  · exact ⟨mergeSWR,by simp only [Operands.effect,hop],fun n hn => mergeSWR_bytes hn⟩
  · exact ⟨mergeSWL,by simp only [Operands.effect,hop],fun n hn => mergeSWL_bytes hn⟩

theorem LoadsFrom.effect (h : LoadsFrom instr off) (o : Operands) :
    ∃ merge, o.effect instr = o.loadPart instr merge ∧
      ∀ n < 4, ∀ old value, LoadsBytes off n old value (merge (3 - n) old value) := by
  rcases h with ⟨hop,rfl⟩ | ⟨hop,rfl⟩
  · exact ⟨mergeLWR,by simp only [Operands.effect,hop],fun n hn => mergeLWR_bytes hn⟩
  · exact ⟨mergeLWL,by simp only [Operands.effect,hop],fun n hn => mergeLWL_bytes hn⟩

theorem StoresFrom.off_lt (h : StoresFrom instr off) : off < 4 := by
  rcases h with ⟨_,rfl⟩ | ⟨_,rfl⟩ <;> decide

theorem LoadsFrom.off_lt (h : LoadsFrom instr off) : off < 4 := by
  rcases h with ⟨_,rfl⟩ | ⟨_,rfl⟩ <;> decide

/-- `SWR` and `SWL`. -/
theorem store_part (hload : (m.registers LoadReg).toNat < NumGPRegs) (hfetch : m.Fetches instr)
    (hpart : StoresFrom instr off)
    (haddr : m.registers instr.rs + instr.extra = a + BitVec.ofNat 32 off)
    (hwritable : m.translation.Writable (a + BitVec.ofNat 32 off)) :
    ∃ m', m.OneInstruction = .ok m' ∧ m'.translation.physical = m.translation.physical ∧
      (m'.registers LoadReg).toNat < NumGPRegs ∧
      Lays m.translation a (m.registers instr.rt) (a + BitVec.ofNat 32 off) m.mainMemory
        m'.mainMemory := by
  obtain ⟨t,ht,hone⟩ := OneInstruction_effect hfetch
  obtain ⟨merge,heffect,hmerge⟩ := hpart.effect (m.operands instr)
  obtain ⟨i,p,hp⟩ := hwritable
  obtain ⟨q,hphysical,halign,hq⟩ := word_around hp
  have haddr' : (m.operands instr).addr instr = a + BitVec.ofNat 32 off := haddr
  rw [heffect,Operands.storePart,Operands.byte,haddr',toNat_and_three] at hone
  obtain ⟨t',ht',happly⟩ := apply_modify (m := { m with translation := t }) (ht ▸ hphysical) halign
    instr.rt fun value => merge (3 - (a + BitVec.ofNat 32 off).toNat % 4) value
      (m.operands instr).rt
  rw [happly] at hone
  refine ⟨_,hone.trans (finish_eq (hload.trans (by decide))),ht'.trans ht,?_,?_⟩
  · exact (@finished_load 0 m.registers (by decide) 0#32
      (m.registers NextPCReg + 4#32)).trans_lt (by decide)
  · exact lays_setWord hpart.off_lt hq (hmerge _ (Nat.mod_lt _ (by decide)) _ _)

theorem Holds.memory (h : m.Holds a w) : ∀ i < 4, ∀ p,
    m.translation.address (a + BitVec.ofNat 32 i) = some p →
      m.mainMemory p = w.extractLsb' (8 * i) 8 := by
  intro i hi p hp
  have hi := h i hi
  unfold user at hi
  rw [hp] at hi
  exact Option.some.inj hi

theorem Holds.mapped (h : m.Holds a w) {i : ℕ} (hi : i < 4) :
    ∃ j p, m.translation.physical (a + BitVec.ofNat 32 i) false = .ok (j,p) := by
  have hi := h i hi
  unfold user Translation.address at hi
  split at hi
  · next j p hp => exact ⟨j,p,hp⟩
  · cases hi

/-- `LWR` and `LWL`: the load is left pending. -/
theorem load_part (hload : (m.registers LoadReg).toNat < NumGPRegs) (hfetch : m.Fetches instr)
    (hpart : LoadsFrom instr off)
    (haddr : m.registers instr.rs + instr.extra = a + BitVec.ofNat 32 off) (hw : m.Holds a w) :
    ∃ t value pc, m.OneInstruction =
        .ok ⟨finished m.registers instr.rt value pc,m.mainMemory,t⟩ ∧
      t.physical = m.translation.physical ∧
      ∀ i < 4, value.extractLsb' (8 * i) 8 =
        if (a + BitVec.ofNat 32 i).toNat / 4 = (a + BitVec.ofNat 32 off).toNat / 4 then
          w.extractLsb' (8 * i) 8
        else (m.operands instr).merged.extractLsb' (8 * i) 8 := by
  obtain ⟨t,ht,hone⟩ := OneInstruction_effect hfetch
  obtain ⟨merge,heffect,hmerge⟩ := hpart.effect (m.operands instr)
  obtain ⟨i,p,hp⟩ := hw.mapped hpart.off_lt
  obtain ⟨q,hphysical,halign,hq⟩ := word_around hp
  have haddr' : (m.operands instr).addr instr = a + BitVec.ofNat 32 off := haddr
  rw [heffect,Operands.loadPart,Operands.byte,haddr',toNat_and_three] at hone
  obtain ⟨t',ht',happly⟩ := apply_load (m := { m with translation := t }) (ht ▸ hphysical) halign
    instr.rt fun value => merge (3 - (a + BitVec.ofNat 32 off).toNat % 4)
      (m.operands instr).merged value
  rw [happly] at hone
  refine ⟨t',_,_,hone.trans (finish_eq (hload.trans (by decide))),ht'.trans ht,?_⟩
  exact loads_word hpart.off_lt hq hw.memory (hmerge _ (Nat.mod_lt _ (by decide)) _ _)

/-! The pairs. -/

/-- What the second instruction may find: the machine that the first has left, or that machine
after an interrupt or a trap, each of which completes the pending load. -/
inductive Between (m : Machine) : Machine → Prop
  | next : Between m m
  | interrupt {m' : Machine} : m.complete = .ok m' → Between m m'
  | trap {m' : Machine} (which : ExceptionType) (badVAddr : BitVec 32) :
    (m.RaiseException which badVAddr : Except Trap Unit) = .error (.exception which m') →
      Between m m'

theorem Between.frame (hload : (m.registers LoadReg).toNat < NumGPRegs) (h : Between m m') :
    m'.mainMemory = m.mainMemory ∧ m'.translation = m.translation ∧
      (m'.registers LoadReg).toNat < NumGPRegs := by
  cases h with
  | next => exact ⟨rfl,rfl,hload⟩
  | interrupt hcomplete =>
    rw [complete_eq hload] at hcomplete
    cases hcomplete
    exact ⟨rfl,rfl,show 0 < NumGPRegs by decide⟩
  | trap which badVAddr hraise =>
    obtain ⟨_,rfl⟩ := RaiseException_exception hraise
    exact ⟨rfl,rfl,show 0 < NumGPRegs by decide⟩

/-- The second load merges into the value of the first, wherever that is. -/
theorem Between.merged (hpending : (m.registers LoadReg).toNat = instr.rt)
    (hrt : instr.rt < NumGPRegs) (hzero : instr.rt ≠ 0) (h : Between m m') :
    (m'.operands instr).merged = m.registers LoadValueReg := by
  have hlt : instr.rt < LoadReg := hrt.trans (by decide)
  have hvalue : loaded m.registers 0 0#32 instr.rt = m.registers LoadValueReg := by
    rw [loaded_of_lt _ _ _ hlt,if_neg hzero,if_pos hpending.symm]
  cases h with
  | next => exact if_pos hpending
  | interrupt hcomplete =>
    rw [complete_eq (hpending.trans_lt hrt)] at hcomplete
    cases hcomplete
    exact (if_neg hzero.symm).trans hvalue
  | trap which badVAddr hraise =>
    obtain ⟨_,rfl⟩ := RaiseException_exception hraise
    exact (if_neg hzero.symm).trans ((raised_of_lt m badVAddr hlt).trans hvalue)

theorem Holds.congr (hw : m.Holds a w) (hmemory : m'.mainMemory = m.mainMemory)
    (hphysical : m'.translation.physical = m.translation.physical) : m'.Holds a w := by
  unfold Holds user at hw ⊢
  rw [hmemory,Translation.address_congr hphysical]
  exact hw

/-- The value that the second load leaves is made of bytes of `w` only. -/
theorem word_of_parts {old value : BitVec 32}
    (h₁ : ∀ i < 4, (a + BitVec.ofNat 32 i).toNat / 4 = a.toNat / 4 →
      old.extractLsb' (8 * i) 8 = w.extractLsb' (8 * i) 8)
    (h₂ : ∀ i < 4, value.extractLsb' (8 * i) 8 =
      if (a + BitVec.ofNat 32 i).toNat / 4 = (a + BitVec.ofNat 32 3).toNat / 4 then
        w.extractLsb' (8 * i) 8
      else old.extractLsb' (8 * i) 8) : value = w := by
  refine word_ext fun i hi => ?_
  have hi' := toNat_add_ofNat a hi
  have hlast := toNat_add_ofNat a (show 3 < 4 by decide)
  rw [h₂ i hi]
  split_ifs with hword
  · rfl
  · exact h₁ i hi (by omega)

/-- `SWL` after `SWR`. -/
theorem store_rest {m₁ : Machine} (hload : (m₁.registers LoadReg).toNat < NumGPRegs)
    (hphysical : m₁.translation.physical = m.translation.physical)
    (hlays : Lays m.translation a v a m.mainMemory m₁.mainMemory)
    (hwritable : ∀ i < 4, m.translation.Writable (a + BitVec.ofNat 32 i)) (hbetween : Between m₁ m')
    (hfetch : m'.Fetches instr) (hop : instr.opCode = OP_SWL)
    (haddr : m'.registers instr.rs + instr.extra = a + 3#32) (hv : m'.registers instr.rt = v) :
    ∃ m₂, m'.OneInstruction = .ok m₂ ∧ m₂.Holds a v ∧
      ∀ p, (∀ i < 4, m.translation.address (a + BitVec.ofNat 32 i) ≠ some p) →
        m₂.mainMemory p = m.mainMemory p := by
  obtain ⟨hmemory,htranslation,hload⟩ := hbetween.frame hload
  have hphysical : m'.translation.physical = m.translation.physical := htranslation ▸ hphysical
  have haddress := Translation.address_congr hphysical
  obtain ⟨i,p,hp⟩ := hwritable 3 (by decide)
  obtain ⟨m₂,hone,hphysical₂,_,hlays₂⟩ := store_part hload hfetch (Or.inr ⟨hop,rfl⟩) haddr
    ⟨i,p,hphysical ▸ hp⟩
  rw [hv,hmemory] at hlays₂
  obtain ⟨hstored,hkept⟩ := hlays.pair ⟨haddress ▸ hlays₂.laid,haddress ▸ hlays₂.kept⟩
  refine ⟨m₂,hone,fun i hi => ?_,hkept⟩
  obtain ⟨j,p,hp⟩ := hwritable i hi
  have hi' := Translation.address_of_physical hp
  rw [user,Translation.address_congr (hphysical₂.trans hphysical),hi',Option.map_some,
    hstored i hi p hi']

/-- `LWL` after `LWR`, whose value `old` is pending. -/
theorem load_rest {m₁ : Machine} {old : BitVec 32} (hw : m₁.Holds a w) (hrt : instr.rt < NumGPRegs)
    (hpending : (m₁.registers LoadReg).toNat = instr.rt) (hold : m₁.registers LoadValueReg = old)
    (hfirst : ∀ i < 4, (a + BitVec.ofNat 32 i).toNat / 4 = a.toNat / 4 →
      old.extractLsb' (8 * i) 8 = w.extractLsb' (8 * i) 8)
    (hbetween : Between m₁ m') (hfetch : m'.Fetches instr) (hop : instr.opCode = OP_LWL)
    (haddr : m'.registers instr.rs + instr.extra = a + 3#32) :
    ∃ m₂, m'.OneInstruction = .ok m₂ ∧ ∀ nextReg nextValue,
      ∃ m₃, m₂.DelayedLoad nextReg nextValue = .ok m₃ ∧
        m₃.registers instr.rt = if instr.rt = 0 then 0#32 else w := by
  obtain ⟨hmemory,htranslation,hload⟩ := hbetween.frame (hpending.trans_lt hrt)
  have hw' : m'.Holds a w := hw.congr hmemory (htranslation ▸ rfl)
  obtain ⟨t,value,pc,hone,_,hvalue⟩ := load_part hload hfetch (Or.inr ⟨hop,rfl⟩) haddr hw'
  refine ⟨_,hone,fun nextReg nextValue => ?_⟩
  have hlast := finished_load m'.registers hrt value pc
  refine ⟨_,DelayedLoad_eq (hlast.trans_lt (hrt.trans (by decide))) _ _,?_⟩
  refine (loaded_of_lt _ nextReg nextValue (hrt.trans (by decide))).trans ?_
  split_ifs with hzero htarget
  · rfl
  · rw [hbetween.merged hpending hrt hzero,hold] at hvalue
    exact word_of_parts hfirst hvalue
  · exact absurd hlast.symm htarget

/-- A word is stored at any address by `SWR` and `SWL`, and loaded from it by `LWR` and `LWL`. -/
theorem unaligned_pairs {first : Instruction} (hm : RegistersOk m.registers)
    (hfetch : m.Fetches first) (haddr : m.registers first.rs + first.extra = a) :
    (first.opCode = OP_SWR → m.registers first.rt = v →
      (∀ i < 4, m.translation.Writable (a + BitVec.ofNat 32 i)) →
      ∃ m₁, m.OneInstruction = .ok m₁ ∧ ∀ m₁' second, Between m₁ m₁' → m₁'.Fetches second →
        second.opCode = OP_SWL → m₁'.registers second.rs + second.extra = a + 3#32 →
        m₁'.registers second.rt = v →
        ∃ m₂, m₁'.OneInstruction = .ok m₂ ∧ m₂.Holds a v ∧
          ∀ p, (∀ i < 4, m.translation.address (a + BitVec.ofNat 32 i) ≠ some p) →
            m₂.mainMemory p = m.mainMemory p) ∧
    (first.opCode = OP_LWR → m.Holds a w →
      ∃ m₁, m.OneInstruction = .ok m₁ ∧ ∀ m₁' second, Between m₁ m₁' → m₁'.Fetches second →
        second.opCode = OP_LWL → m₁'.registers second.rs + second.extra = a + 3#32 →
        second.rt = first.rt →
        ∃ m₂, m₁'.OneInstruction = .ok m₂ ∧ ∀ nextReg nextValue,
          ∃ m₃, m₂.DelayedLoad nextReg nextValue = .ok m₃ ∧
            m₃.registers first.rt = if first.rt = 0 then 0#32 else w) := by
  have hfirst : a + BitVec.ofNat 32 0 = a := BitVec.add_zero a
  have hrt : first.rt < NumGPRegs := hfetch.registers_lt.2.1
  constructor
  · intro hop hv hwritable
    obtain ⟨m₁,hone,hphysical,hload,hlays⟩ := store_part hm.load hfetch (Or.inl ⟨hop,rfl⟩)
      (haddr.trans hfirst.symm) (hwritable 0 (by decide))
    rw [hv,hfirst] at hlays
    refine ⟨m₁,hone,fun m₁' second hbetween hfetch' hop' haddr' hv' => ?_⟩
    exact store_rest hload hphysical hlays hwritable hbetween hfetch' hop' haddr' hv'
  · intro hop hw
    obtain ⟨t,value,pc,hone,hphysical,hvalue⟩ := load_part hm.load hfetch (Or.inl ⟨hop,rfl⟩)
      (haddr.trans hfirst.symm) hw
    rw [hfirst] at hvalue
    refine ⟨_,hone,fun m₁' second hbetween hfetch' hop' haddr' hrt' => ?_⟩
    rw [← hrt'] at hrt hbetween ⊢
    have hw₁ : Holds ⟨finished m.registers second.rt value pc,m.mainMemory,t⟩ a w :=
      hw.congr rfl hphysical
    exact load_rest hw₁ hrt (finished_load m.registers hrt value pc) rfl
      (fun i hi hword => (hvalue i hi).trans (if_pos hword)) hbetween hfetch' hop' haddr'

end Instructions

/-- A program of two instructions with the address 9 in register 4 and a number in register 5,
in a page in which byte `i` is `i` elsewhere. -/
def moving (first second : BitVec 32) : Machine where
  registers := fun i =>
    if i = 4 then 9#32 else if i = 5 then 0x04030201#32 else if i = NextPCReg then 4#32 else 0#32
  mainMemory := fun i =>
    if i < 4 then first.extractLsb' (8 * i) 8
    else if i < 8 then second.extractLsb' (8 * (i - 4)) 8 else BitVec.ofNat 8 i
  translation := (pendingLoad 0#32).translation

/-- `swr $5,0($4)` and `swl $5,3($4)`, and the loads with an interrupt between them. -/
theorem unaligned_pairs_nine :
    (∃ m₁ m₂, (moving 0xb8850000#32 0xa8850003#32).OneInstruction = .ok m₁ ∧
      m₁.OneInstruction = .ok m₂ ∧ m₂.Holds 9#32 0x04030201#32) ∧
    ∃ m₁ m₁' m₂ m₃, (moving 0x98850000#32 0x88850003#32).OneInstruction = .ok m₁ ∧
      m₁.complete = .ok m₁' ∧ m₁'.OneInstruction = .ok m₂ ∧ m₂.complete = .ok m₃ ∧
      m₃.registers 5 = 0x0c0b0a09#32 := by
  constructor
  · have hwritable : ∀ i < 4, (moving 0xb8850000#32 0xa8850003#32).translation.Writable
        (9#32 + BitVec.ofNat 32 i) := by
      intro i hi
      interval_cases i <;> exact ⟨_,_,rfl⟩
    obtain ⟨m₁,hone,hall⟩ := (unaligned_pairs (m := moving 0xb8850000#32 0xa8850003#32) (a := 9#32)
      (v := 0x04030201#32) (w := 0#32) ⟨rfl,by decide⟩ ⟨0xb8850000#32,_,rfl,rfl⟩ (by decide)).1
      (by decide) (by decide) hwritable
    have hone' : (moving 0xb8850000#32 0xa8850003#32).OneInstruction = .ok _ := rfl
    cases hone.symm.trans hone'
    obtain ⟨m₂,hone₂,hholds,_⟩ := hall _ _ .next ⟨0xa8850003#32,_,rfl,rfl⟩ (by decide) (by decide)
      (by decide)
    exact ⟨_,m₂,hone,hone₂,hholds⟩
  · have hw : (moving 0x98850000#32 0x88850003#32).Holds 9#32 0x0c0b0a09#32 := by
      intro i hi
      interval_cases i <;> rfl
    obtain ⟨m₁,hone,hall⟩ := (unaligned_pairs (m := moving 0x98850000#32 0x88850003#32) (a := 9#32)
      (v := 0#32) (w := 0x0c0b0a09#32) ⟨rfl,by decide⟩ ⟨0x98850000#32,_,rfl,rfl⟩ (by decide)).2
      (by decide) hw
    have hone' : (moving 0x98850000#32 0x88850003#32).OneInstruction = .ok _ := rfl
    cases hone.symm.trans hone'
    obtain ⟨m₂,hone₂,hloads⟩ := hall _ _ (.interrupt rfl) ⟨0x88850003#32,_,rfl,rfl⟩ (by decide)
      (by decide) (by decide)
    obtain ⟨m₃,hcomplete,hvalue⟩ := hloads 0 0#32
    exact ⟨_,_,m₂,m₃,hone,rfl,hone₂,hcomplete,hvalue⟩

end Hardware.Machine
end NachOS
