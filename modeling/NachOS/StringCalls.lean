import NachOS.ConsoleCalls
import NachOS.Numbers
import NachOS.Transfer

/-! Strings between a user program and the console: the system calls PrintString and
ReadString. -/
namespace NachOS

open StateMachine hiding Machine
open Memory Hardware

namespace Kernel

/-- The string `p` and the NUL that ends it stand at `x`. -/
structure HoldsString (view : BitVec 32 → Option Byte) (x : BitVec 32) (p : List Byte) : Prop where
  nonzero : 0#8 ∉ p
  bytes : Holds view x (p ++ [0#8])

namespace HoldsString

variable {view : BitVec 32 → Option Byte} {x : BitVec 32} {p : List Byte}

theorem getElem {j : ℕ} {c : Byte} (h : HoldsString view x p) (hj : p[j]? = some c) :
    view (x + BitVec.ofNat 32 j) = some c := by
  have hlt := (List.getElem?_eq_some_iff.mp hj).1
  exact h.bytes j c ((List.getElem?_append_left hlt).trans hj)

theorem terminator (h : HoldsString view x p) :
    view (x + BitVec.ofNat 32 p.length) = some 0#8 :=
  h.bytes p.length 0#8 List.getElem?_concat_length

theorem byte (h : HoldsString view x p) {j : ℕ} (hj : j ≤ p.length) :
    view (x + BitVec.ofNat 32 j) = some (ofList p j) := by
  by_cases hlt : j < p.length
  · rw [h.getElem (List.getElem?_eq_getElem hlt),ofList,List.getD_eq_getElem _ _ hlt]
  · obtain rfl : j = p.length := by omega
    rw [h.terminator,ofList,List.getD_eq_default _ _ (Nat.le_refl _)]

/-- A string that went once around the address space would run into itself. -/
theorem length_lt (h : HoldsString view x p) : p.length < 2 ^ 32 := by
  by_contra hlong
  have hmod : p.length % 2 ^ 32 < p.length := by omega
  have hget := List.getElem?_eq_getElem hmod
  have hsame : BitVec.ofNat 32 (p.length % 2 ^ 32) = BitVec.ofNat 32 p.length := by
    apply BitVec.eq_of_toNat_eq
    simp
  have hbyte := h.getElem hget
  rw [hsame,h.terminator] at hbyte
  exact h.nonzero (Option.some.inj hbyte ▸ List.getElem_mem hmod)

theorem drop (h : HoldsString view x p) {n : ℕ} (hn : n ≤ p.length) :
    HoldsString view (x + BitVec.ofNat 32 n) (p.drop n) := by
  refine ⟨fun hz => h.nonzero (List.mem_of_mem_drop hz),fun j c hj => ?_⟩
  rw [← List.drop_append_of_le_length hn,List.getElem?_drop] at hj
  rw [BitVec.add_assoc,← BitVec.ofNat_add]
  exact h.bytes (n + j) c hj

end HoldsString

/-! Copies of strings. -/

/-- A copy of a string stops after its NUL. -/
theorem copied_string {b : Buffer} {p : List Byte} {n : ℕ} (hp : 0#8 ∉ p)
    (hb : ∀ j, j ≤ p.length → j < n → b j = ofList p j) :
    copied b false 0 n = min (p.length + 1) n := by
  apply eq_of_forall_lt_iff
  intro j
  rw [lt_copied,lt_min_iff,and_comm]
  refine and_congr_left fun hn => ?_
  constructor
  · intro h
    by_contra hj
    refine h p.length (by omega) ?_
    rw [Nat.zero_add,hb _ (Nat.le_refl _) (by omega),ofList,
      List.getD_eq_default _ _ (Nat.le_refl _)]
  · intro hj l hl hz
    have hlt : l < p.length := by omega
    rw [Nat.zero_add,hb l (by omega) (by omega),ofList,List.getD_eq_getElem _ _ hlt] at hz
    exact hp (hz ▸ List.getElem_mem hlt)

theorem patch_ofList (p : List Byte) (n : ℕ) :
    patch (fun _ => 0#8) (ofList p) 0 (min (p.length + 1) n) = ofList (p.take n) := by
  funext j
  by_cases hj : j < n
  · simp only [patch,ofList,List.getD_eq_getElem?_getD,List.getElem?_take,if_pos hj]
    split
    · rfl
    · rw [List.getElem?_eq_none (by omega)]
      rfl
  · simp only [patch,ofList,List.getD_eq_getElem?_getD,List.getElem?_take,if_neg hj]
    rw [if_neg (by omega)]
    rfl

/-- `User2System` with the addresses that it reads. -/
def User2SystemReads (k : Kernel) (virtualAddress limit : ℤ) (keepNULL : Bool) :
    Except Fault (List (BitVec 32) × Buffer × Kernel) := do
  inBounds (0 ≤ wrap (limit + 1))
  k.copyInReads virtualAddress keepNULL (fun _ => 0#8) 0 limit.toNat

theorem User2System_of_reads {k k' : Kernel} {virtualAddress limit : ℤ} {keepNULL : Bool}
    {b : Buffer} {reads : List (BitVec 32)}
    (h : k.User2SystemReads virtualAddress limit keepNULL = .ok (reads,b,k')) :
    k.User2System virtualAddress limit keepNULL = .ok (b,k') := by
  obtain ⟨hlimit,hcopy⟩ := inBounds_bind_ok.mp h
  exact inBounds_bind_ok.mpr ⟨hlimit,copyIn_of_reads hcopy⟩

/-- A string is copied up to its end or to the limit, and nothing is read beyond. -/
theorem User2SystemReads_string {k : Kernel} {x : BitVec 32} {p : List Byte} {n : ℕ}
    (hp : HoldsString k.machine.user x p) (hn : n + 1 < 2 ^ 31) :
    ∃ k', k.User2SystemReads x.toInt n false =
        .ok (addresses x 0 (min (p.length + 1) n),ofList (p.take n),k') ∧
      Sees k k' k.machine.user ∧ OnlyMachine k k' := by
  have hcopied : copied (ofList p) false 0 n = min (p.length + 1) n :=
    copied_string hp.nonzero fun _ _ _ => rfl
  have hbytes : ∀ j, 0 ≤ j → j < 0 + copied (ofList p) false 0 n →
      k.machine.user (x + BitVec.ofNat 32 j) = some (ofList p j) := by
    intro j _ hj
    rw [hcopied] at hj
    exact hp.byte (by omega)
  obtain ⟨k',hrun,hsees⟩ := copyInReads_of_user (fun _ => 0#8) hbytes
  rw [hcopied,patch_ofList] at hrun
  have hwrap : wrap ((n : ℤ) + 1) = n + 1 := wrap_of_range (by omega) (by omega)
  have hcall : k.User2SystemReads x.toInt n false =
      .ok (addresses x 0 (min (p.length + 1) n),ofList (p.take n),k') := by
    unfold User2SystemReads
    rw [hwrap,inBounds_of (by omega),Int.toNat_natCast]
    exact hrun
  exact ⟨k',hcall,hsees,OnlyMachine.of_User2System (User2System_of_reads hcall)⟩

/-! PrintString. -/

/-- The loop of `SystemCallPrintString` with the addresses that it reads. -/
def printChunksReads (k : Kernel) (virtualAddr : ℤ) :
    ℕ → Except Fault (List (BitVec 32) × Kernel)
  | 0 => .error .blocked
  | n + 1 => do
    let (reads,buffer,k) ← k.User2SystemReads virtualAddr MAX_SIZE false
    let k ← k.SysPrintString buffer (MAX_SIZE + 1)
    if buffer (MAX_SIZE - 1) = 0#8 then return (reads,k)
    else
      let (rest,k) ← printChunksReads k (virtualAddr + MAX_SIZE) n
      return (reads ++ rest,k)

/-- PrintString with the addresses of user memory that it reads, the first one first. -/
def SystemCallPrintStringReads (k : Kernel) : Except Fault (List (BitVec 32) × Kernel) := do
  let virtualAddr ← k.ReadRegister 4
  k.printChunksReads virtualAddr (2 ^ 22)

theorem printChunks_of_reads {k k' : Kernel} {virtualAddr : ℤ} {n : ℕ}
    {reads : List (BitVec 32)} (h : k.printChunksReads virtualAddr n = .ok (reads,k')) :
    k.printChunks virtualAddr n = .ok k' := by
  induction n generalizing k virtualAddr reads with
  | zero => cases h
  | succ n ih =>
    obtain ⟨⟨first,buffer,k₁⟩,hcopy,h⟩ := bind_ok.mp h
    obtain ⟨k₂,hprint,h⟩ := bind_ok.mp h
    refine bind_ok.mpr ⟨_,User2System_of_reads hcopy,bind_ok.mpr ⟨k₂,hprint,?_⟩⟩
    split at h
    · next hlast =>
      cases h
      exact if_pos hlast
    · next hmore =>
      obtain ⟨⟨rest,k₃⟩,hrest,h⟩ := bind_ok.mp h
      cases h
      rw [if_neg hmore]
      exact ih hrest

theorem SystemCallPrintString_of_reads {k k' : Kernel} {reads : List (BitVec 32)}
    (h : k.SystemCallPrintStringReads = .ok (reads,k')) : k.SystemCallPrintString = .ok k' := by
  obtain ⟨virtualAddr,haddr,h⟩ := bind_ok.mp h
  exact bind_ok.mpr ⟨virtualAddr,haddr,printChunks_of_reads h⟩

/-! Of an address only its 32 bits count. -/

theorem copyInReads_congr {a b : ℤ} (h : BitVec.ofInt 32 a = BitVec.ofInt 32 b) (k : Kernel)
    (keepNULL : Bool) (buffer : Buffer) (i n : ℕ) :
    k.copyInReads a keepNULL buffer i n = k.copyInReads b keepNULL buffer i n := by
  induction n generalizing k buffer i with
  | zero => rfl
  | succ n ih =>
    have hi : BitVec.ofInt 32 (a + i) = BitVec.ofInt 32 (b + i) := by
      rw [BitVec.ofInt_add,BitVec.ofInt_add,h]
    have hread : k.ReadMem (a + i) = k.ReadMem (b + i) := by
      unfold ReadMem
      rw [hi]
    simp only [copyInReads,hread,hi,ih]

theorem printChunksReads_congr {a b : ℤ} (h : BitVec.ofInt 32 a = BitVec.ofInt 32 b)
    (k : Kernel) (n : ℕ) : k.printChunksReads a n = k.printChunksReads b n := by
  induction n generalizing k a b with
  | zero => rfl
  | succ n ih =>
    have hnext : BitVec.ofInt 32 (a + MAX_SIZE) = BitVec.ofInt 32 (b + MAX_SIZE) := by
      rw [BitVec.ofInt_add,BitVec.ofInt_add,h]
    simp only [printChunksReads,User2SystemReads,copyInReads_congr h,ih hnext]

theorem addresses_append (x : BitVec 32) (m n : ℕ) :
    addresses x 0 m ++ addresses (x + BitVec.ofNat 32 m) 0 n = addresses x 0 (m + n) := by
  have hshift : addresses (x + BitVec.ofNat 32 m) 0 n = addresses x m n := by
    have hrange : List.range' m n = (List.range' 0 n).map (m + ·) := by
      rw [List.map_add_range',Nat.add_zero]
    rw [addresses,addresses,hrange,List.map_map]
    refine List.map_congr_left fun j _ => ?_
    rw [Function.comp_apply,BitVec.ofNat_add,BitVec.add_assoc]
  have hrange := @List.range'_append_1 0 m n
  rw [Nat.zero_add] at hrange
  rw [hshift,addresses,addresses,addresses,← List.map_append,hrange]

theorem ofList_at (q : List Byte) : At (ofList q) 0 (q ++ [0#8]) := by
  refine at_of_getD fun j hj => ?_
  rw [Nat.zero_add,ofList]
  by_cases hlt : j < q.length
  · rw [List.getD_append _ _ _ _ hlt]
  · rw [List.length_append,List.length_singleton] at hj
    obtain rfl : j = q.length := by omega
    simp

/-- The last cell of the buffer tells whether the string ends in this chunk. -/
theorem ofList_last {p : List Byte} (hp : 0#8 ∉ p) :
    ofList (p.take MAX_SIZE) (MAX_SIZE - 1) = 0#8 ↔ p.length < MAX_SIZE := by
  rw [ofList,List.getD_eq_getElem?_getD,List.getElem?_take,if_pos (by decide)]
  constructor
  · intro h
    by_contra hlong
    have hpos : 0 < MAX_SIZE := by decide
    have hlt : MAX_SIZE - 1 < p.length := by omega
    rw [List.getElem?_eq_getElem hlt,Option.getD_some] at h
    exact hp (h ▸ List.getElem_mem hlt)
  · intro h
    rw [List.getElem?_eq_none (show p.length ≤ MAX_SIZE - 1 by omega)]
    rfl

theorem OnlyMachine.printed {k k' : Kernel} (h : OnlyMachine k k') (p : List Byte) :
    OnlyMachine (k.printed p) (k'.printed p) := by
  unfold OnlyMachine at h ⊢
  rw [h]
  rfl

theorem printed_append (k : Kernel) (p q : List Byte) :
    (k.printed p).printed q = k.printed (p ++ q) := by
  simp [Kernel.printed]

theorem printChunksReads_string {k : Kernel} {x : BitVec 32} {p : List Byte} {n : ℕ}
    (hp : HoldsString k.machine.user x p) (hn : p.length < n * MAX_SIZE) :
    ∃ k', k.printChunksReads x.toInt n = .ok (addresses x 0 (p.length + 1),k') ∧
      Sees k k' k.machine.user ∧ OnlyMachine (k.printed p) k' := by
  induction n generalizing k x p with
  | zero => omega
  | succ n ih =>
    rw [Nat.succ_mul] at hn
    obtain ⟨k₁,hcopy,hsees,honly⟩ :=
      User2SystemReads_string (n := MAX_SIZE) hp (by decide)
    have hchunk : 0#8 ∉ p.take MAX_SIZE := fun hz => hp.nonzero (List.mem_of_mem_take hz)
    have hprint : k₁.SysPrintString (ofList (p.take MAX_SIZE)) (MAX_SIZE + 1) =
        .ok (k₁.printed (p.take MAX_SIZE)) :=
      printString_of_at (ofList_at _) hchunk (by rw [List.length_take]; omega)
    have hseen : Sees k (k₁.printed (p.take MAX_SIZE)) k.machine.user :=
      ⟨hsees.user,hsees.physical,hsees.fileSystem⟩
    have hmachine := honly.printed (p.take MAX_SIZE)
    by_cases hlast : p.length < MAX_SIZE
    · rw [List.take_of_length_le (by omega)] at hcopy hprint hseen hmachine
      refine ⟨k₁.printed p,bind_ok.mpr ⟨_,hcopy,bind_ok.mpr ⟨_,hprint,?_⟩⟩,hseen,hmachine⟩
      have hcell := (ofList_last hp.nonzero).mpr hlast
      rw [List.take_of_length_le (by omega)] at hcell
      rw [if_pos hcell,min_eq_left (by omega)]
      rfl
    · -- the rest of the string stands where the next chunk begins
      have hrest : HoldsString (k₁.printed (p.take MAX_SIZE)).machine.user
          (x + BitVec.ofNat 32 MAX_SIZE) (p.drop MAX_SIZE) := by
        rw [hseen.user]
        exact hp.drop (by omega)
      obtain ⟨k',hrun,hsees',honly'⟩ := ih hrest (by rw [List.length_drop]; omega)
      have hcell := mt (ofList_last hp.nonzero).mp hlast
      refine ⟨k',bind_ok.mpr ⟨_,hcopy,bind_ok.mpr ⟨_,hprint,?_⟩⟩,?_,?_⟩
      · have hnext : BitVec.ofInt 32 (x.toInt + MAX_SIZE) =
            BitVec.ofInt 32 (x + BitVec.ofNat 32 MAX_SIZE).toInt := by
          rw [ofInt_add_natCast,BitVec.ofInt_toInt]
        rw [if_neg hcell,printChunksReads_congr hnext,hrun]
        have hlen : MAX_SIZE + ((p.drop MAX_SIZE).length + 1) = p.length + 1 := by
          rw [List.length_drop]
          omega
        rw [min_eq_right (by omega)]
        simp only [bind,Except.bind,pure,Except.pure,addresses_append,hlen]
      · have ht := hseen.trans hsees'
        rwa [hseen.user] at ht
      · have hboth := (hmachine.printed (p.drop MAX_SIZE)).trans honly'
        rwa [printed_append,List.take_append_drop] at hboth

/-- PrintString sends the string to the console, once and in order, and reads each of its
bytes and the NUL after them once and no other byte. -/
theorem printString_prints {k : Kernel} {p : List Byte}
    (hp : HoldsString k.machine.user (k.machine.registers 4) p) : ∃ k',
    k.SystemCallPrintString = .ok k' ∧
    k.SystemCallPrintStringReads = .ok (addresses (k.machine.registers 4) 0 (p.length + 1),k') ∧
    k'.console = { k.console with output := k.console.output ++ p } ∧
    k'.machine.user = k.machine.user := by
  have hlong := hp.length_lt
  obtain ⟨k',hrun,hsees,honly⟩ := printChunksReads_string (n := 2 ^ 22) hp (by omega)
  have hcall : k.SystemCallPrintStringReads =
      .ok (addresses (k.machine.registers 4) 0 (p.length + 1),k') := by
    unfold SystemCallPrintStringReads
    rw [ReadRegister_of_lt k (by decide)]
    exact hrun
  exact ⟨k',SystemCallPrintString_of_reads hcall,hcall,honly.console,hsees.user⟩

/-- A string of one character that ends with the last byte of the address space. -/
def lastString : Kernel :=
  { exampleKernel 0 with
    machine := { exampleMachine 0 with
      registers := fun i => if i = 4 then 1022#32 else 0#32
      mainMemory := fun i => if i = 1022 then 97#8 else 0#8 } }

theorem printString_prints_last : lastString.machine.user 1024 = none ∧
    ∃ k', lastString.SystemCallPrintString = .ok k' ∧ k'.console.output = [97#8] := by
  have hp : HoldsString lastString.machine.user (lastString.machine.registers 4) [97#8] := by
    refine ⟨by decide,fun j c hj => ?_⟩
    match j with
    | 0 =>
      cases hj
      rfl
    | 1 =>
      cases hj
      rfl
  obtain ⟨k',hrun,_,hconsole,_⟩ := printString_prints hp
  exact ⟨rfl,k',hrun,congrArg Console.output hconsole⟩

/-! ReadString. -/

/-- The characters that ReadString should take off the console: up to and with the first one
that ends a line, but at most `n`. -/
def lineTaken (n : ℕ) (input : List Byte) : List Byte :=
  input.take (min n (input.findIdx endsLine + 1))

/-- The bytes that it should store: the characters before the one that ends the line and a
NUL, or `n` characters without. -/
def lineStored (n : ℕ) (input : List Byte) : List Byte :=
  if input.findIdx endsLine < n then input.take (input.findIdx endsLine) ++ [0#8]
  else input.take n

theorem endsLine_iff {c : Byte} : endsLine c = true ↔ Terminator c := by
  simp [endsLine,Terminator]

/-- The input begins with a line that is short enough, or with `n` characters of a line. -/
theorem line_cases {n : ℕ} {input : List Byte}
    (h : n ≤ input.length ∨ ∃ c ∈ input.take n, Terminator c) :
    (∃ line e rest, input = line ++ e :: rest ∧ (∀ c ∈ line, ¬ Terminator c) ∧ Terminator e ∧
      line.length < n ∧ lineTaken n input = line ++ [e] ∧ lineStored n input = line ++ [0#8]) ∨
    ∃ line rest, input = line ++ rest ∧ (∀ c ∈ line, ¬ Terminator c) ∧ line.length = n ∧
      lineTaken n input = line ∧ lineStored n input = line := by
  have hbefore : ∀ m, m ≤ input.findIdx endsLine → ∀ c ∈ input.take m, ¬ Terminator c := by
    intro m hm c hc
    obtain ⟨j,hj,rfl⟩ := List.mem_iff_getElem.mp hc
    rw [List.length_take] at hj
    rw [List.getElem_take,← endsLine_iff]
    exact Bool.not_eq_true _ ▸ List.not_of_lt_findIdx (by omega)
  by_cases hline : input.findIdx endsLine < n
  · have hlt : input.findIdx endsLine < input.length := by
      rcases h with hn | ⟨c,hc,he⟩
      · omega
      · exact List.findIdx_lt_length_of_exists ⟨c,List.mem_of_mem_take hc,endsLine_iff.mpr he⟩
    have hlen : (input.take (input.findIdx endsLine)).length = input.findIdx endsLine := by
      rw [List.length_take]
      omega
    refine Or.inl ⟨input.take (input.findIdx endsLine),input[input.findIdx endsLine],
      input.drop (input.findIdx endsLine + 1),?_,hbefore _ (Nat.le_refl _),?_,?_,?_,if_pos hline⟩
    · rw [List.cons_getElem_drop_succ,List.take_append_drop]
    · exact endsLine_iff.mp List.findIdx_getElem
    · rwa [hlen]
    · rw [lineTaken,min_eq_right (by omega),List.take_succ_eq_append_getElem hlt]
  · have hn : n ≤ input.length := (Nat.le_of_not_lt hline).trans List.findIdx_le_length
    refine Or.inr ⟨input.take n,input.drop n,(List.take_append_drop n input).symm,
      hbefore n (Nat.le_of_not_lt hline),?_,?_,if_neg hline⟩
    · rw [List.length_take]
      omega
    · rw [lineTaken,min_eq_left (by omega)]

section Reading

variable {k : Kernel} {b : Buffer} {i n : ℕ} {line rest : List Byte}

/-- After the byte that counts as end of file the loop waits. -/
theorem readString_EOF (hended : k.console.ended = false)
    (hinput : k.console.input = line ++ EOF :: rest) (hline : ∀ c ∈ line, ¬ Terminator c)
    (hEOF : EOF ∉ line) (hn : line.length + 1 < n) : k.readString b i n = .error .blocked := by
  obtain ⟨m,rfl⟩ : ∃ m, n = line.length + (m + 2) := ⟨n - line.length - 2,by omega⟩
  obtain ⟨b',hrun,-,-⟩ := readString_append (b := b) (i := i) hended hinput hline hEOF (m + 2)
  obtain ⟨k₁,hread,hstop⟩ : ∃ k₁, (k.consumed (EOF :: rest)).SysReadChar = .ok (EOF,k₁) ∧
      k₁.SysReadChar = .error .blocked := SysReadChar_EOF rfl rfl
  have hgo : ¬ (EOF = 0#8 ∨ EOF = 10#8) := by decide
  rw [hrun]
  simp only [readString,hread,bind,Except.bind,if_neg hgo,hstop]

/-- As many characters as were asked for are read, if none of them but the last counts as end
of file. -/
theorem readString_full (hended : line = [] ∨ k.console.ended = false)
    (hinput : k.console.input = line ++ rest) (hline : ∀ c ∈ line, ¬ Terminator c)
    (hEOF : EOF ∉ line.dropLast) :
    ∃ b' ended, k.readString b i line.length =
        .ok (b',{ k with console := { k.console with input := rest, ended := ended } }) ∧
      At b' i line := by
  rcases List.eq_nil_or_concat line with rfl | ⟨first,c,rfl⟩
  · refine ⟨b,k.console.ended,?_,trivial⟩
    rw [← hinput.trans (List.nil_append rest)]
    rfl
  · have hended := hended.resolve_left (by simp)
    rw [List.concat_eq_append] at hinput hline hEOF ⊢
    rw [List.append_assoc] at hinput
    rw [List.dropLast_concat] at hEOF
    obtain ⟨b',hrun,hat,-⟩ := readString_append (b := b) (i := i) hended hinput
      (fun d hd => hline d (List.mem_append_left _ hd)) hEOF 1
    have hc : ¬ (c = 0#8 ∨ c = 10#8) := hline c (by simp)
    refine ⟨Function.update b' (i + first.length) c,c == EOF,?_,at_append.mpr ⟨?_,?_,trivial⟩⟩
    · rw [List.length_append,List.length_singleton,hrun]
      simp only [readString,SysReadChar,GetChar,consumed,List.singleton_append,bind,Except.bind,
        Bool.false_eq_true,if_false,if_neg hc,pure,Except.pure]
    · refine (at_congr fun j _ hj => ?_).mpr hat
      exact Function.update_of_ne (by omega) _ _
    · exact Function.update_self ..

theorem nonzero_of_line (hline : ∀ c ∈ line, ¬ Terminator c) : 0#8 ∉ line :=
  fun hz => hline 0#8 hz (Or.inl rfl)

/-- Where a buffer holds a string with its NUL, or the first `n` characters of one, the copy
of it to the user program ends with what it holds. -/
theorem copied_line (hline : 0#8 ∉ line) {stored : List Byte} (hat : At b 0 stored)
    (h : stored = line ++ [0#8] ∧ line.length < n ∨ stored = line ∧ line.length = n) :
    copied b false 0 n = stored.length := by
  have hb : ∀ j, j ≤ line.length → j < n → b j = ofList line j := by
    intro j hj hn
    rw [← Nat.zero_add j]
    refine hat.getElem ?_
    rw [Nat.zero_add,ofList,List.getD_eq_getElem?_getD]
    rcases h with ⟨rfl,_⟩ | ⟨rfl,hlen⟩
    · by_cases hlt : j < line.length
      · rw [List.getElem?_append_left hlt,List.getElem?_eq_getElem hlt,Option.getD_some]
      · obtain rfl : j = line.length := by omega
        rw [List.getElem?_concat_length,List.getElem?_eq_none (Nat.le_refl _),Option.getD_none]
    · rw [List.getElem?_eq_getElem (by omega),Option.getD_some]
  rw [copied_string hline hb]
  rcases h with ⟨rfl,_⟩ | ⟨rfl,_⟩
  · rw [List.length_append,List.length_singleton]
    omega
  · omega

/-- `SysReadString` takes the line and leaves it in the buffer. -/
theorem SysReadString_line (hended : n = 0 ∨ k.console.ended = false)
    (h : n ≤ k.console.input.length ∨ ∃ c ∈ k.console.input.take n, Terminator c)
    (hEOF : EOF ∉ (lineTaken n k.console.input).dropLast) :
    ∃ b' ended, k.SysReadString b n = .ok (b',{ k with console := { k.console with
        input := k.console.input.drop (lineTaken n k.console.input).length, ended := ended } }) ∧
      At b' 0 (lineStored n k.console.input) ∧
      copied b' false 0 n = (lineStored n k.console.input).length := by
  rcases line_cases h with ⟨line,e,rest,hinput,hline,he,hlen,htaken,hstored⟩ |
    ⟨line,rest,hinput,hline,hlen,htaken,hstored⟩
  · rw [htaken,List.dropLast_concat] at hEOF
    obtain ⟨b',hrun,hat,-⟩ := readString_line (b := b) (i := 0) (hended.resolve_left (by omega))
      hinput hline hEOF he hlen
    have hdrop : k.console.input.drop (line ++ [e]).length = rest := by
      rw [hinput,List.append_cons line e rest,List.drop_left]
    rw [htaken,hstored,hdrop]
    exact ⟨b',false,hrun,hat,copied_line (nonzero_of_line hline) hat (Or.inl ⟨rfl,hlen⟩)⟩
  · rw [htaken] at hEOF
    have hended : line = [] ∨ k.console.ended = false := by
      rw [← List.length_eq_zero_iff,hlen]
      exact hended
    obtain ⟨b',ended,hrun,hat⟩ := readString_full (b := b) (i := 0) hended hinput hline hEOF
    rw [hlen] at hrun
    have hdrop : k.console.input.drop line.length = rest := by
      rw [hinput,List.drop_left]
    rw [htaken,hstored,hdrop]
    exact ⟨b',ended,hrun,hat,copied_line (nonzero_of_line hline) hat (Or.inr ⟨rfl,hlen⟩)⟩

theorem SysReadString_EOF (hended : n = 0 ∨ k.console.ended = false)
    (h : n ≤ k.console.input.length ∨ ∃ c ∈ k.console.input.take n, Terminator c)
    (hEOF : EOF ∈ (lineTaken n k.console.input).dropLast) :
    k.SysReadString b n = .error .blocked := by
  have hbefore : ∃ before after, k.console.input = before ++ after ∧
      (∀ c ∈ before, ¬ Terminator c) ∧ EOF ∈ before ∧ before.length < n := by
    rcases line_cases h with ⟨line,e,rest,hinput,hline,he,hlen,htaken,_⟩ |
      ⟨line,rest,hinput,hline,hlen,htaken,_⟩
    · rw [htaken,List.dropLast_concat] at hEOF
      exact ⟨line,e :: rest,hinput,hline,hEOF,hlen⟩
    · rw [htaken] at hEOF
      rcases List.eq_nil_or_concat line with rfl | ⟨first,c,rfl⟩
      · simp at hEOF
      · rw [List.concat_eq_append,List.dropLast_concat] at hEOF
        rw [List.concat_eq_append] at hinput hline hlen
        refine ⟨first,[c] ++ rest,?_,fun d hd => hline d (List.mem_append_left _ hd),hEOF,?_⟩
        · rw [hinput,List.append_assoc]
        · rw [← hlen,List.length_append,List.length_singleton]
          omega
  obtain ⟨before,after,hinput,hline,hmem,hlen⟩ := hbefore
  obtain ⟨first,more,rfl,hfirst⟩ := List.eq_append_cons_of_mem hmem
  rw [List.length_append,List.length_cons] at hlen
  rw [List.append_assoc,List.cons_append] at hinput
  exact readString_EOF (hended.resolve_left (by omega)) hinput
    (fun c hc => hline c (List.mem_append_left _ hc)) hfirst (by omega)

end Reading

/-- What ReadString does according to its purpose: it takes one line, at most `n` characters,
stores it at `x` and leaves everything else alone. -/
structure ReadsLine (k k' : Kernel) (x : BitVec 32) (n : ℕ) : Prop where
  input : k'.console.input = k.console.input.drop (lineTaken n k.console.input).length
  line : Holds k'.machine.user x (lineStored n k.console.input)
  others : AgreeOutside k.machine.user k'.machine.user x (lineStored n k.console.input).length
  output : k'.console.output = k.console.output

/-- A line in a buffer reaches the user program, and nothing else does. -/
theorem System2User_line {k : Kernel} {x : BitVec 32} {n : ℕ} {b : Buffer} {stored : List Byte}
    (hapart : k.machine.translation.Apart) (hn : n ≤ 2 ^ 32)
    (hwritable : ∀ j < n, k.machine.translation.Writable (x + BitVec.ofNat 32 j))
    (hat : At b 0 stored) (hcopied : copied b false 0 n = stored.length) :
    ∃ count k', k.System2User x.toInt n b false = .ok (count,k') ∧
      Holds k'.machine.user x stored ∧
      AgreeOutside k.machine.user k'.machine.user x stored.length ∧ k'.console = k.console := by
  obtain ⟨⟨count,k'⟩,hstore⟩ := System2User_of_writable b false hwritable
  have hsees := System2User_sees hapart hn hstore
  have hle : stored.length ≤ n := hcopied ▸ copied_le b false 0 n
  refine ⟨count,k',hstore,?_,?_,(OnlyMachine.of_System2User hstore).console⟩
  · intro j c hj
    have hlt := (List.getElem?_eq_some_iff.mp hj).1
    have hb := hat.getElem hj
    rw [Nat.zero_add] at hb
    rw [hsees.user,overlay_add_ofNat _ _ _ (by omega),if_pos (by omega),hb]
  · rw [hsees.user]
    exact agreeOutside_overlay (by omega)

/-- ReadString takes its line and stores it just if no character of it but the last counts as
end of file; otherwise it waits. -/
theorem readString_line_iff {k : Kernel} {n : ℕ} (hapart : k.machine.translation.Apart)
    (hlength : (k.machine.registers 5).toInt = n) (hn : n < MAX_SIZE)
    (hwritable : ∀ j < n,
      k.machine.translation.Writable (k.machine.registers 4 + BitVec.ofNat 32 j))
    (hended : n = 0 ∨ k.console.ended = false)
    (hinput : n ≤ k.console.input.length ∨ ∃ c ∈ k.console.input.take n, Terminator c) :
    (∃ k', k.SystemCallReadString = .ok k' ∧ ReadsLine k k' (k.machine.registers 4) n) ↔
      EOF ∉ (lineTaken n k.console.input).dropLast := by
  have hcall : k.SystemCallReadString = (k.alloc.2.SysReadString k.alloc.1 n >>= fun r =>
      r.2.System2User (k.machine.registers 4).toInt n r.1 false >>= fun s => pure s.2) := by
    refine ConsoleCall.SystemCallReadString_eq (ReadRegister_of_lt k (by decide)) ?_ hn
    rw [ReadRegister_of_lt k (by decide),hlength]
  rw [hcall]
  constructor
  · rintro ⟨k',hk',_⟩ hEOF
    have hstop : k.alloc.2.SysReadString k.alloc.1 n = .error .blocked :=
      SysReadString_EOF hended hinput hEOF
    rw [hstop] at hk'
    cases hk'
  · intro hEOF
    obtain ⟨b,ended,hread,hat,hcopied⟩ :=
      SysReadString_line (k := k.alloc.2) (b := k.alloc.1) hended hinput hEOF
    obtain ⟨count,k',hstore,hholds,hagree,hconsole⟩ :=
      System2User_line (k := { k.alloc.2 with console := { k.console with
        input := k.console.input.drop (lineTaken n k.console.input).length, ended := ended } })
      hapart (hn.le.trans (by decide)) hwritable hat hcopied
    refine ⟨k',bind_ok.mpr ⟨_,hread,bind_ok.mpr ⟨_,hstore,rfl⟩⟩,?_,hholds,hagree,?_⟩
    · rw [hconsole]
    · rw [hconsole]

/-- A user program that asks for at most three characters at address 8. -/
def askingKernel (input : List Byte) : Kernel :=
  { exampleKernel 0 with
    machine := { exampleMachine 0 with
      registers := fun i => if i = 4 then 8#32 else if i = 5 then 3#32 else 0#32 }
    console := ⟨input,false,[]⟩ }

theorem askingKernel_writable (input : List Byte) : ∀ j < 3,
    (askingKernel input).machine.translation.Writable (8#32 + BitVec.ofNat 32 j) := by
  intro j hj
  apply AddrSpace.writable_new (exampleMachine 0) (exampleMachine 0) (by decide)
  have hcases : j = 0 ∨ j = 1 ∨ j = 2 := by omega
  rcases hcases with rfl | rfl | rfl <;> decide

theorem readString_line_iff_hi : ∃ k',
    (askingKernel [104#8,105#8,10#8,120#8]).SystemCallReadString = .ok k' ∧
    ReadsLine (askingKernel [104#8,105#8,10#8,120#8]) k' 8 3 :=
  (readString_line_iff (AddrSpace.apart_new (exampleMachine 0) (exampleMachine 0) (by decide)) rfl
    (by decide) (askingKernel_writable _) (Or.inr rfl) (Or.inl (by decide))).mpr (by decide)

/-- With the byte 255 before the end of the line the call waits, although the line is there. -/
theorem readString_waits_at_255 :
    (∃ c ∈ (askingKernel [255#8,97#8,10#8]).console.input.take 3, Terminator c) ∧
    (∀ j < 3, (askingKernel [255#8,97#8,10#8]).machine.translation.Writable
      (8#32 + BitVec.ofNat 32 j)) ∧
    (askingKernel [255#8,97#8,10#8]).SystemCallReadString = .error .blocked :=
  ⟨⟨10#8,by decide,Or.inr rfl⟩,askingKernel_writable _,rfl⟩

end Kernel
end NachOS
