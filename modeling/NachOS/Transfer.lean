import NachOS.ExceptionHandler
import NachOS.StubTransfer

/-! Data between a user program and a file: the system calls Write, Seek and Read. -/
namespace NachOS

open StateMachine hiding Machine
open Memory Stub Hardware

namespace Kernel

/-- The user program puts a system call code and three arguments in its registers and traps
into the kernel. -/
def request (k : Kernel) (c : ℤ) (arg₁ arg₂ arg₃ : BitVec 32) : Except Fault Kernel :=
  ExceptionHandler ((((k.setRegister 2 (BitVec.ofInt 32 c)).setRegister 4 arg₁).setRegister 5
    arg₂).setRegister 6 arg₃) .syscallException

/-- The bytes `bs` stand at `x`. -/
def Holds (view : BitVec 32 → Option Byte) (x : BitVec 32) (bs : List Byte) : Prop :=
  ∀ j c, bs[j]? = some c → view (x + BitVec.ofNat 32 j) = some c

/-- Of the bytes `bs`, those after a NUL stand at `x` already. -/
def TailHolds (view : BitVec 32 → Option Byte) (x : BitVec 32) (bs : List Byte) : Prop :=
  ∀ i j c, i < j → bs[i]? = some 0#8 → bs[j]? = some c →
    view (x + BitVec.ofNat 32 j) = some c

/-- Two views agree but for the `n` addresses from `x` on. -/
def AgreeOutside (view view' : BitVec 32 → Option Byte) (x : BitVec 32) (n : ℕ) : Prop :=
  ∀ y, (∀ j < n, y ≠ x + BitVec.ofNat 32 j) → view' y = view y

section Overlay

variable {view : BitVec 32 → Option Byte} {x : BitVec 32} {b : Buffer} {bs : List Byte}

theorem agreeOutside_overlay {c n : ℕ} (hc : c ≤ n) :
    AgreeOutside view (overlay view x b 0 c) x n := by
  intro y hy
  rw [overlay,if_neg]
  rintro ⟨_,hlt⟩
  exact hy _ (by omega) ((eq_add_ofNat_iff (BitVec.isLt _)).mpr rfl)

/-- A copy that stops after the first NUL delivers all bytes exactly if the others stood
there before. -/
theorem holds_overlay_iff (hb : ∀ j c, bs[j]? = some c → b j = c) (hlen : bs.length ≤ 2 ^ 32) :
    Holds (overlay view x b 0 (copied b false 0 bs.length)) x bs ↔ TailHolds view x bs := by
  have hrange : ∀ {j c}, bs[j]? = some c → j < bs.length := by
    intro j c h
    exact (List.getElem?_eq_some_iff.mp h).1
  constructor
  · intro h i j c hij hi hj
    have hview := h j c hj
    have hlt := hrange hj
    rw [overlay_add_ofNat view x b (by omega),if_neg] at hview
    · exact hview
    · rintro ⟨_,hcopied⟩
      rw [Nat.zero_add] at hcopied
      have hne := (lt_copied.mp hcopied).2 i hij
      rw [Nat.zero_add] at hne
      exact hne (hb i _ hi)
  · intro h j c hj
    have hlt := hrange hj
    rw [overlay_add_ofNat view x b (by omega)]
    split
    · rw [hb j c hj]
    · next hnot =>
      have hstop : ¬ ∀ l < j, b (0 + l) ≠ 0#8 := by
        intro hall
        have hcopied := lt_copied.mpr ⟨hlt,hall⟩
        omega
      push Not at hstop
      obtain ⟨l,hl,hzero⟩ := hstop
      rw [Nat.zero_add] at hzero
      have hget : bs[l]? = some bs[l] := List.getElem?_eq_getElem (by omega)
      refine h l j c hl ?_ hj
      rw [hget,← hb l _ hget,hzero]

end Overlay

theorem fill_eq {buffer : Buffer} {bs : List Byte} {j : ℕ} {c : Byte} (h : bs[j]? = some c) :
    fill buffer bs j = c := by
  unfold fill
  rw [List.getD_eq_getElem?_getD,h,Option.getD_some]

/-! One system call. -/

/-- The kernel when the handler of a requested call starts. -/
def requested (k : Kernel) (f : Handler) (c : ℤ) (arg₁ arg₂ arg₃ : BitVec 32) : Kernel :=
  let k' := (((k.setRegister 2 (BitVec.ofInt 32 c)).setRegister 4 arg₁).setRegister 5
    arg₂).setRegister 6 arg₃
  { k' with executed := k.executed ++ [f] }

theorem request_ok {k k' : Kernel} {f : Handler} {c : ℤ} {arg₁ arg₂ arg₃ : BitVec 32}
    (hf : handlerOf (BitVec.ofInt 32 c).toInt = some f) :
    k.request c arg₁ arg₂ arg₃ = .ok k' ↔
      ∃ k₁, handle f (k.requested f c arg₁ arg₂ arg₃) = .ok k₁ ∧ k' = k₁.advance := by
  unfold request
  rw [ExceptionHandler_of_handlerOf (f := f) hf,bind_ok]
  refine exists_congr fun k₁ => and_congr Iff.rfl ?_
  rw [ProcessPCRegister_eq]
  constructor
  · intro h
    exact (Except.ok.inj h).symm
  · rintro rfl
    rfl

section Requested

variable (k : Kernel) (f : Handler) (c : ℤ) (arg₁ arg₂ arg₃ : BitVec 32)

@[simp] theorem requested_arg₁ :
    (k.requested f c arg₁ arg₂ arg₃).machine.registers 4 = arg₁ := by
  simp [requested]

@[simp] theorem requested_arg₂ :
    (k.requested f c arg₁ arg₂ arg₃).machine.registers 5 = arg₂ := by
  simp [requested]

@[simp] theorem requested_arg₃ :
    (k.requested f c arg₁ arg₂ arg₃).machine.registers 6 = arg₃ := by
  simp [requested]

theorem requested_sees : Sees k (k.requested f c arg₁ arg₂ arg₃) k.machine.user :=
  ⟨rfl,rfl,rfl⟩

end Requested

theorem advance_sees (k : Kernel) : Sees k k.advance k.machine.user := ⟨rfl,rfl,rfl⟩

@[simp] theorem advance_result (k : Kernel) :
    k.advance.machine.registers 2 = k.machine.registers 2 := by
  simp [advance]

theorem ReadRegister_ok {k : Kernel} {num : ℕ} {value : ℤ} (hnum : num < NumTotalRegs)
    (h : k.ReadRegister num = .ok value) : value = (k.machine.registers num).toInt :=
  (Except.ok.inj ((k.ReadRegister_of_lt hnum).symm.trans h)).symm

theorem toInt_ofInt_natCast {n : ℕ} (hn : n < 2 ^ 31) : (BitVec.ofInt 32 (n : ℤ)).toInt = n :=
  wrap_of_range (by omega) (by omega)

/-- What Read from a file delivers if it returns a count. -/
theorem SystemCallRead_delivers {k k' : Kernel} (hapart : k.machine.translation.Apart)
    (hfd : 2 ≤ (k.machine.registers 6).toInt) (h : k.SystemCallRead = .ok k')
    (hr : 0 ≤ (k'.machine.registers 2).toInt) : ∃ (b : Buffer) (bs : List Byte),
      bs = (k.fileSystem.remaining (k.machine.registers 6).toInt).take
        (k.machine.registers 5).toInt.toNat ∧
      (∀ j c, bs[j]? = some c → b j = c) ∧ (k'.machine.registers 2).toInt = bs.length ∧
      bs.length < 2 ^ 31 ∧ k'.machine.user =
        overlay k.machine.user (k.machine.registers 4) b 0 (copied b false 0 bs.length) := by
  obtain ⟨virtAddr,hv,h⟩ := bind_ok.mp h
  obtain ⟨length,hl,h⟩ := bind_ok.mp h
  obtain ⟨fd,hf,h⟩ := bind_ok.mp h
  obtain ⟨_,_,h⟩ := bind_ok.mp h
  have hv := ReadRegister_ok (by decide) hv
  have hl := ReadRegister_ok (by decide) hl
  have hf := ReadRegister_ok (by decide) hf
  subst hv hl hf
  dsimp only at h
  rw [if_neg (by omega),if_neg (by omega)] at h
  obtain ⟨⟨result,bs,fs⟩,hread,h⟩ := bind_ok.mp h
  obtain ⟨k₁,hdeliver,h⟩ := bind_ok.mp h
  rw [WriteRegister_of_lt _ _ (by decide)] at h
  cases h
  rw [setRegister_registers,Function.update_self] at hr ⊢
  dsimp only at hr hdeliver ⊢
  rcases SysRead_cases hread with rfl | ⟨hbs,rfl⟩
  · exact absurd hr (by decide)
  · have hlen : bs.length < 2 ^ 31 := by
      have hle := List.length_take_le (k.machine.registers 5).toInt.toNat
        (k.fileSystem.remaining (k.machine.registers 6).toInt)
      have hmax := BitVec.toInt_lt (x := k.machine.registers 5)
      have hbs' : bs.length ≤ (k.machine.registers 5).toInt.toNat := hbs ▸ hle
      omega
    refine ⟨fill k.alloc.1 bs,bs,hbs,fun j c hj => fill_eq hj,toInt_ofInt_natCast hlen,hlen,?_⟩
    unfold deliver at hdeliver
    rw [if_pos (by omega)] at hdeliver
    obtain ⟨⟨count,k₂⟩,hcopy,hdeliver⟩ := bind_ok.mp hdeliver
    cases hdeliver
    have hsees := System2User_sees (k := { k.alloc.2 with fileSystem := fs }) hapart (by omega)
      hcopy
    exact hsees.user

/-- Read from a file hands the bytes it got to `System2User`. -/
theorem SystemCallRead_eq {k : Kernel} {n : ℕ} {bs : List Byte} {fs : Stub.FileSystem}
    (hfd : 2 ≤ (k.machine.registers 6).toInt) (hn : (k.machine.registers 5).toInt = n)
    (hread : SysRead k.fileSystem n (k.machine.registers 6).toInt = .ok (bs.length,bs,fs))
    (hlen : bs.length ≤ n) (hwritable : ∀ j < n,
      k.machine.translation.Writable (k.machine.registers 4 + BitVec.ofNat 32 j)) :
    ∃ count k₁, System2User { k.alloc.2 with fileSystem := fs } (k.machine.registers 4).toInt
        bs.length (fill k.alloc.1 bs) false = .ok (count,k₁) ∧
      k.SystemCallRead = .ok (k₁.setRegister 2 (BitVec.ofInt 32 bs.length)) := by
  rw [← hn] at hread
  obtain ⟨⟨count,k₁⟩,hcopy⟩ := System2User_of_writable (k := { k.alloc.2 with fileSystem := fs })
    (x := k.machine.registers 4) (fill k.alloc.1 bs) false (n := bs.length)
    (fun j hj => hwritable j (by omega))
  have hdeliver : deliver { k.alloc.2 with fileSystem := fs } (k.machine.registers 4).toInt
      bs.length (fill k.alloc.1 bs) = .ok k₁ := by
    unfold deliver
    rw [if_pos (by omega)]
    exact bind_ok.mpr ⟨_,hcopy,rfl⟩
  refine ⟨count,k₁,hcopy,?_⟩
  refine bind_ok.mpr ⟨_,k.ReadRegister_of_lt (by decide),?_⟩
  refine bind_ok.mpr ⟨_,k.ReadRegister_of_lt (by decide),?_⟩
  refine bind_ok.mpr ⟨_,k.ReadRegister_of_lt (by decide),?_⟩
  refine bind_ok.mpr ⟨(),inBounds_of (by omega),?_⟩
  dsimp only
  rw [if_neg (by omega),if_neg (by omega)]
  refine bind_ok.mpr ⟨_,hread,bind_ok.mpr ⟨_,hdeliver,?_⟩⟩
  exact WriteRegister_of_lt _ _ (by decide)

/-- Read from a file that is open for reading returns. -/
theorem SystemCallRead_of_readWrite {k : Kernel} (file : List Byte) {n p : ℕ}
    (hfd : 2 ≤ (k.machine.registers 6).toInt)
    (hfile : k.fileSystem.ReadWrite (k.machine.registers 6).toInt file p)
    (hp : p ≤ Host.limit) (hn : (k.machine.registers 5).toInt = n)
    (hwritable : ∀ j < n,
      k.machine.translation.Writable (k.machine.registers 4 + BitVec.ofNat 32 j)) :
    ∃ k', k.SystemCallRead = .ok k' ∧ 0 ≤ (k'.machine.registers 2).toInt := by
  obtain ⟨fs,hread⟩ := SysRead_of_readWrite hfile hp n
  have hlen : ((file.drop p).take n).length ≤ n := List.length_take_le _ _
  have hmax := BitVec.toInt_lt (x := k.machine.registers 5)
  obtain ⟨_,k₁,_,hcall⟩ := SystemCallRead_eq hfd hn hread hlen hwritable
  refine ⟨_,hcall,?_⟩
  rw [setRegister_registers,Function.update_self,toInt_ofInt_natCast (by omega)]
  omega

/-- User memory is as before, and the descriptor is at `p` in a file. -/
structure FileOnly (k k' : Kernel) (fd : ℤ) (file : List Byte) (p : ℕ) : Prop where
  user : k'.machine.user = k.machine.user
  physical : k'.machine.translation.physical = k.machine.translation.physical
  readWrite : k'.fileSystem.ReadWrite fd file p

/-- Write to a file hands the bytes in user memory, NULs included, to `SysWrite`. -/
theorem SystemCallWrite_eq {k : Kernel} (bs : List Byte)
    (hfd : 2 ≤ (k.machine.registers 6).toInt) (hn : (k.machine.registers 5).toInt = bs.length)
    (hlen : bs.length + 1 < 2 ^ 31) (hbs : Holds k.machine.user (k.machine.registers 4) bs) :
    ∃ (k₁ : Kernel) (buffer : Buffer), Sees k k₁ k.machine.user ∧
      (List.range bs.length).map buffer = bs ∧ k.SystemCallWrite =
        SysWrite k.fileSystem buffer bs.length (k.machine.registers 6).toInt >>= fun r =>
          .ok (setRegister { k₁ with fileSystem := r.2 } 2 (BitVec.ofInt 32 r.1)) := by
  let b : Buffer := fun j => bs.getD j 0#8
  have hb : ∀ j, j < bs.length → bs[j]? = some (b j) := by
    intro j hj
    simp only [b,List.getD_eq_getElem?_getD,List.getElem?_eq_getElem hj,Option.getD_some]
  obtain ⟨k₁,hcopy,hsees⟩ := User2System_of_user (k := k) (x := k.machine.registers 4) (b := b)
    true hlen (fun j hj => by
      rw [copied_keepNULL] at hj
      exact hbs j _ (hb j hj))
  rw [copied_keepNULL] at hcopy
  have hbytes : (List.range bs.length).map (patch (fun _ => 0#8) b 0 bs.length) = bs := by
    apply List.ext_getElem?
    intro j
    by_cases hj : j < bs.length
    · rw [List.getElem?_map,List.getElem?_range hj,Option.map_some,patch,if_pos (by omega),hb j hj]
    · rw [List.getElem?_eq_none (by simpa using hj),List.getElem?_eq_none (by omega)]
  refine ⟨k₁,patch (fun _ => 0#8) b 0 bs.length,hsees,hbytes,?_⟩
  unfold SystemCallWrite
  rw [ReadRegister_of_lt k (by decide),ReadRegister_of_lt k (by decide),
    ReadRegister_of_lt k (by decide)]
  simp only [bind,Except.bind,hn,hcopy]
  rw [if_neg (by omega),if_neg (by omega),hsees.fileSystem]
  cases SysWrite k.fileSystem (patch (fun _ => 0#8) b 0 bs.length) bs.length
      (k.machine.registers 6).toInt with
  | error e => rfl
  | ok r => exact WriteRegister_of_lt _ _ (by decide)

/-- Write to a file copies the bytes out of user memory, NULs included. -/
theorem SystemCallWrite_of_holds {k : Kernel} (bs file : List Byte) {p : ℕ}
    (hfd : 2 ≤ (k.machine.registers 6).toInt)
    (hfile : k.fileSystem.ReadWrite (k.machine.registers 6).toInt file p)
    (hn : (k.machine.registers 5).toInt = bs.length) (hlen : bs.length + 1 < 2 ^ 31)
    (hbs : Holds k.machine.user (k.machine.registers 4) bs) :
    (p + bs.length ≤ Host.limit → ∃ k', k.SystemCallWrite = .ok k') ∧
    ∀ k', k.SystemCallWrite = .ok k' → p + bs.length ≤ Host.limit ∧
      FileOnly k k' (k.machine.registers 6).toInt (Host.overwrite file bs p) (p + bs.length) := by
  obtain ⟨k₁,buffer,hsees,hbytes,hcall⟩ := SystemCallWrite_eq bs hfd hn hlen hbs
  rw [hcall]
  constructor
  · intro hroom
    obtain ⟨r,hwrite⟩ := SysWrite_of_readWrite hfile buffer hroom
    exact ⟨_,bind_ok.mpr ⟨r,hwrite,rfl⟩⟩
  · intro k' h
    obtain ⟨⟨r,fs⟩,hwrite,h⟩ := bind_ok.mp h
    cases h
    obtain ⟨hroom,_,hrw⟩ := SysWrite_ok hfile hwrite
    rw [hbytes] at hrw
    exact ⟨hroom,hsees.user,hsees.physical,hrw⟩

/-- Seek to an offset of an open file. -/
theorem SystemCallSeek_of_readWrite {k : Kernel} (file : List Byte) {p q : ℕ}
    (hfd : 2 ≤ (k.machine.registers 5).toInt)
    (hfile : k.fileSystem.ReadWrite (k.machine.registers 5).toInt file p)
    (hlen : file.length ≤ Host.limit) (hq : (k.machine.registers 4).toInt = q) :
    ∃ k', k.SystemCallSeek = .ok k' ∧ FileOnly k k' (k.machine.registers 5).toInt file
      (if q ≤ file.length then q else p) := by
  obtain ⟨r,fs,hseek,hrw⟩ := SysSeek_of_readWrite hfile hlen q
  rw [← hq] at hseek
  refine ⟨setRegister { k with fileSystem := fs } 2 (BitVec.ofInt 32 r),?_,rfl,rfl,hrw⟩
  refine bind_ok.mpr ⟨_,k.ReadRegister_of_lt (by decide),?_⟩
  refine bind_ok.mpr ⟨_,k.ReadRegister_of_lt (by decide),?_⟩
  rw [if_neg (by omega)]
  refine bind_ok.mpr ⟨_,hseek,?_⟩
  exact WriteRegister_of_lt _ _ (by decide)

/-! Requests of the user program. -/

theorem toInt_ofNat_of_lt {n : ℕ} (hn : n < 2 ^ 31) : (BitVec.ofNat 32 n).toInt = n := by
  rw [← BitVec.ofInt_natCast]
  exact toInt_ofInt_natCast hn

/-- Read puts the count in register 2 and delivers the bytes up to the first NUL. -/
theorem read_delivers {k k' : Kernel} (hapart : k.machine.translation.Apart)
    {x length fd : BitVec 32} (bs : List Byte) (hfd : 2 ≤ fd.toInt)
    (h : k.request SC_Read x length fd = .ok k') (hr : 0 ≤ (k'.machine.registers 2).toInt)
    (hbs : bs = (k.fileSystem.remaining fd.toInt).take length.toInt.toNat) :
    (k'.machine.registers 2).toInt = bs.length ∧
      AgreeOutside k.machine.user k'.machine.user x bs.length ∧
      (Holds k'.machine.user x bs ↔ TailHolds k.machine.user x bs) := by
  obtain ⟨k₁,hread,rfl⟩ := (request_ok (f := .read) rfl).mp h
  have hsees := k.requested_sees .read SC_Read x length fd
  rw [advance_result] at hr ⊢
  obtain ⟨b,bs',hbs',hb,hcount,hlen,huser⟩ := SystemCallRead_delivers
    (hapart.congr hsees.physical) (by rwa [requested_arg₃]) hread hr
  rw [requested_arg₁,hsees.user] at huser
  rw [requested_arg₂,requested_arg₃,hsees.fileSystem,← hbs] at hbs'
  subst hbs'
  rw [(advance_sees k₁).user,huser]
  exact ⟨hcount,agreeOutside_overlay (copied_le _ _ _ _),holds_overlay_iff hb (by omega)⟩

/-- Bytes that stand in user memory fit in main memory. -/
theorem Holds.length_le {k : Kernel} (hapart : k.machine.translation.Apart) {x : BitVec 32}
    {bs : List Byte} (h : Holds k.machine.user x bs) (hlen : bs.length ≤ 2 ^ 32) :
    bs.length ≤ MemorySize := by
  refine hapart.length_le (x := x) hlen fun j hj => ?_
  have hbyte := h j _ (List.getElem?_eq_getElem hj)
  obtain ⟨p,hp,_⟩ := Option.map_eq_some_iff.mp hbyte
  exact ⟨p,hp⟩

/-- After bytes were written at an offset, the offset is inside the file. -/
theorem seek_back (file bs : List Byte) (p : ℕ) :
    (if p ≤ (Host.overwrite file bs p).length then p else p + bs.length) = p := by
  rw [Host.length_overwrite]
  by_cases hbs : bs = []
  · simp [hbs]
  · rw [if_neg hbs,if_pos (by omega)]

section RoundTrip

variable {k : Kernel} (hapart : k.machine.translation.Apart) {x x₂ fd : BitVec 32}
  {bs file : List Byte} {p : ℕ} (hfd : 2 ≤ fd.toInt)
include hapart hfd

theorem write_request (hlen : bs.length < 2 ^ 31) (hbs : Holds k.machine.user x bs)
    (hfile : k.fileSystem.ReadWrite fd.toInt file p) :
    (p + bs.length ≤ Host.limit →
      ∃ k₁, k.request SC_Write x (BitVec.ofNat 32 bs.length) fd = .ok k₁) ∧
    ∀ k₁, k.request SC_Write x (BitVec.ofNat 32 bs.length) fd = .ok k₁ →
      p + bs.length ≤ Host.limit ∧
        FileOnly k k₁ fd.toInt (Host.overwrite file bs p) (p + bs.length) := by
  have hmem := hbs.length_le hapart (by omega)
  have hsees := k.requested_sees .write SC_Write x (BitVec.ofNat 32 bs.length) fd
  obtain ⟨hruns,hruns'⟩ := SystemCallWrite_of_holds
    (k := k.requested .write SC_Write x (BitVec.ofNat 32 bs.length) fd) bs file
    (p := p) (by rwa [requested_arg₃]) (by rwa [requested_arg₃])
    (by rw [requested_arg₂,toInt_ofNat_of_lt hlen])
    (by simp only [MemorySize,NumPhysPages,PageSize] at hmem; omega)
    (by rwa [requested_arg₁])
  rw [requested_arg₃] at hruns'
  constructor
  · intro hroom
    obtain ⟨k₁,hk₁⟩ := hruns hroom
    exact ⟨k₁.advance,(request_ok (f := .write) rfl).mpr ⟨k₁,hk₁,rfl⟩⟩
  · intro k' h
    obtain ⟨k₁,hk₁,rfl⟩ := (request_ok (f := .write) rfl).mp h
    obtain ⟨hroom,hfiles⟩ := hruns' k₁ hk₁
    exact ⟨hroom,hfiles.user,hfiles.physical,hfiles.readWrite⟩

omit hapart in
theorem seek_request {q : ℕ} (hfile : k.fileSystem.ReadWrite fd.toInt file q)
    (hlen : file.length ≤ Host.limit) (hp : p ≤ Host.limit) :
    ∃ k₂, k.request SC_Seek (BitVec.ofNat 32 p) fd 0 = .ok k₂ ∧
      FileOnly k k₂ fd.toInt file (if p ≤ file.length then p else q) := by
  obtain ⟨k₁,hk₁,hfiles⟩ := SystemCallSeek_of_readWrite
    (k := k.requested .seek SC_Seek (BitVec.ofNat 32 p) fd 0) file (p := q) (q := p)
    (by rwa [requested_arg₂]) (by rwa [requested_arg₂]) hlen
    (by rw [requested_arg₁,toInt_ofNat_of_lt (by simp only [Host.limit] at hp; omega)])
  rw [requested_arg₂] at hfiles
  exact ⟨k₁.advance,(request_ok (f := .seek) rfl).mpr ⟨k₁,hk₁,rfl⟩,hfiles.user,hfiles.physical,
    hfiles.readWrite⟩

/-- Reading back what stands in the file at the offset. -/
theorem read_request {n : ℕ} (hfile : k.fileSystem.ReadWrite fd.toInt file p)
    (hp : p ≤ Host.limit) (hn : n < 2 ^ 31) (hbs : bs = (file.drop p).take n)
    (hwritable : ∀ j < n, k.machine.translation.Writable (x + BitVec.ofNat 32 j)) :
    ∃ k₃, k.request SC_Read x (BitVec.ofNat 32 n) fd = .ok k₃ ∧
      (k₃.machine.registers 2).toInt = bs.length ∧
      (Holds k₃.machine.user x bs ↔ TailHolds k.machine.user x bs) := by
  obtain ⟨k₁,hk₁,hr⟩ := SystemCallRead_of_readWrite
    (k := k.requested .read SC_Read x (BitVec.ofNat 32 n) fd) file (n := n) (p := p)
    (by rwa [requested_arg₃]) (by rwa [requested_arg₃]) hp
    (by rw [requested_arg₂,toInt_ofNat_of_lt hn]) (by rwa [requested_arg₁])
  have hrequest : k.request SC_Read x (BitVec.ofNat 32 n) fd = .ok k₁.advance :=
    (request_ok (f := .read) rfl).mpr ⟨k₁,hk₁,rfl⟩
  have hd := read_delivers hapart bs hfd hrequest (by rwa [advance_result])
    (by rw [toInt_ofNat_of_lt hn,Int.toNat_natCast,hfile.remaining,hbs])
  exact ⟨k₁.advance,hrequest,hd.1,hd.2.2⟩

end RoundTrip

/-- The data that Write, Seek and Read move through a file arrive exactly if, in each
transfer by Read, the bytes after a NUL stood in user memory before. -/
theorem transfer_iff (k : Kernel) (hapart : k.machine.translation.Apart) :
    (∀ (x length fd : BitVec 32) (n : ℕ) (k' : Kernel), 2 ≤ fd.toInt →
      k.request SC_Read x length fd = .ok k' → (k'.machine.registers 2).toInt = n →
      n ≤ (k.fileSystem.remaining fd.toInt).length ∧
      (Holds k'.machine.user x ((k.fileSystem.remaining fd.toInt).take n) ∧
          AgreeOutside k.machine.user k'.machine.user x n ↔
        TailHolds k.machine.user x ((k.fileSystem.remaining fd.toInt).take n))) ∧
    (∀ (x x₂ fd : BitVec 32) (bs file : List Byte) (p : ℕ), bs.length < 2 ^ 31 →
      Holds k.machine.user x bs → 2 ≤ fd.toInt → k.fileSystem.ReadWrite fd.toInt file p →
      file.length ≤ Host.limit →
      (∀ j < bs.length, k.machine.translation.Writable (x₂ + BitVec.ofNat 32 j)) →
      (p + bs.length ≤ Host.limit →
        ∃ k₁, k.request SC_Write x (BitVec.ofNat 32 bs.length) fd = .ok k₁) ∧
      ∀ k₁, k.request SC_Write x (BitVec.ofNat 32 bs.length) fd = .ok k₁ →
        ∃ k₂ k₃, k₁.request SC_Seek (BitVec.ofNat 32 p) fd 0 = .ok k₂ ∧
          k₂.request SC_Read x₂ (BitVec.ofNat 32 bs.length) fd = .ok k₃ ∧
          (k₃.machine.registers 2).toInt = bs.length ∧
          (Holds k₃.machine.user x₂ bs ↔ TailHolds k.machine.user x₂ bs)) := by
  constructor
  · intro x length fd n k' hfd h hr
    obtain ⟨hcount,hagree,hiff⟩ := read_delivers hapart _ hfd h (by omega) rfl
    have hn : n = ((k.fileSystem.remaining fd.toInt).take length.toInt.toNat).length := by omega
    have htake : (k.fileSystem.remaining fd.toInt).take n =
        (k.fileSystem.remaining fd.toInt).take length.toInt.toNat := by
      rw [hn,List.length_take,List.take_eq_take_iff]
      omega
    rw [← hn] at hagree
    rw [htake]
    refine ⟨?_,⟨fun hdelivered => hiff.mp hdelivered.1,fun htail => ⟨hiff.mpr htail,hagree⟩⟩⟩
    rw [hn,List.length_take]
    omega
  · intro x x₂ fd bs file p hlen hbs hfd hfile hlimit hwritable
    obtain ⟨hruns,hruns'⟩ := write_request hapart hfd hlen hbs hfile
    refine ⟨hruns,fun k₁ h₁ => ?_⟩
    obtain ⟨hroom,hfiles₁⟩ := hruns' k₁ h₁
    have hlength : (Host.overwrite file bs p).length ≤ Host.limit := by
      rw [Host.length_overwrite]
      split <;> omega
    obtain ⟨k₂,h₂,hfiles₂⟩ := seek_request hfd hfiles₁.readWrite hlength (p := p) (by omega)
    rw [seek_back] at hfiles₂
    have hphys := hfiles₂.physical.trans hfiles₁.physical
    obtain ⟨k₃,h₃,hcount,hiff⟩ := read_request (hapart.congr hphys) hfd hfiles₂.readWrite
      (by omega) hlen (Host.take_drop_overwrite file bs p).symm
      fun j hj => (hwritable j hj).congr hphys
    rw [hfiles₂.user,hfiles₁.user] at hiff
    exact ⟨k₂,k₃,h₂,h₃,hcount,hiff⟩

/-- A user program with two bytes at address 0 and a new file open as descriptor 2. -/
def transferKernel (b₀ b₁ : Byte) : Kernel :=
  { exampleKernel 0 with
    machine := { exampleMachine 0 with
      mainMemory := fun i => if i = 0 then b₀ else if i = 1 then b₁ else 0#8 }
    fileSystem := (SysOpen (.new exampleHost) [97#8] 1).2 }

theorem holds_transferKernel (b₀ b₁ : Byte) :
    Holds (transferKernel b₀ b₁).machine.user 0 [b₀,b₁] := by
  intro j c hj
  match j with
  | 0 =>
    cases hj
    rfl
  | 1 =>
    cases hj
    rfl

theorem readWrite_transferKernel (b₀ b₁ : Byte) :
    (transferKernel b₀ b₁).fileSystem.ReadWrite 2 [] 0 := ⟨_,_,rfl,rfl,rfl,rfl,rfl,rfl⟩

theorem transfer_iff_text : ∃ k₁ k₂ k₃,
    (transferKernel 65#8 66#8).request SC_Write 0 2 2 = .ok k₁ ∧
    k₁.request SC_Seek 0 2 0 = .ok k₂ ∧ k₂.request SC_Read 8 2 2 = .ok k₃ ∧
    (k₃.machine.registers 2).toInt = 2 ∧ Holds k₃.machine.user 8 [65#8,66#8] := by
  have hapart : (transferKernel 65#8 66#8).machine.translation.Apart :=
    AddrSpace.apart_new (exampleMachine 0) (exampleMachine 0) (by decide)
  obtain ⟨hwrite,hrest⟩ := (transfer_iff (transferKernel 65#8 66#8) hapart).2 0 8 2
    [65#8,66#8] [] 0 (by decide) (holds_transferKernel _ _) (by decide)
    (readWrite_transferKernel _ _) (by decide) (by
      intro j hj
      apply AddrSpace.writable_new (exampleMachine 0) (exampleMachine 0) (by decide)
      have hcases : j = 0 ∨ j = 1 := by
        have hlen : j < 2 := hj
        omega
      rcases hcases with rfl | rfl <;> decide)
  obtain ⟨k₁,h₁⟩ := hwrite (by decide)
  obtain ⟨k₂,k₃,h₂,h₃,hcount,hiff⟩ := hrest k₁ h₁
  refine ⟨k₁,k₂,k₃,h₁,h₂,h₃,hcount,hiff.mpr ?_⟩
  intro i j c _ hi
  match i with
  | 0 => exact absurd hi (by decide)
  | 1 => exact absurd hi (by decide)

/-- Of the bytes 0 and 65 in a file the second one does not reach the user program, although
the count is 2. -/
theorem read_loses_byte_after_nul : Holds (transferKernel 0#8 65#8).machine.user 0 [0#8,65#8] ∧
    ∃ k₁ k₂ k₃, (transferKernel 0#8 65#8).request SC_Write 0 2 2 = .ok k₁ ∧
      k₁.request SC_Seek 0 2 0 = .ok k₂ ∧ k₂.request SC_Read 8 2 2 = .ok k₃ ∧
      k₁.fileSystem.host.contents 10 = [0#8,65#8] ∧
      (k₃.machine.registers 2).toInt = 2 ∧ k₃.machine.user 9 = some 0#8 := by
  have hrun : ((transferKernel 0#8 65#8).request SC_Write 0 2 2 >>= fun k₁ =>
      k₁.request SC_Seek 0 2 0 >>= fun k₂ => k₂.request SC_Read 8 2 2 >>= fun k₃ =>
      Except.ok (k₁.fileSystem.host.contents 10,(k₃.machine.registers 2).toInt,
        k₃.machine.user 9)).toOption = some ([0#8,65#8],2,some 0#8) := by
    decide +kernel
  obtain ⟨k₁,h₁,hrun⟩ := bind_ok.mp (ok_of_toOption hrun)
  obtain ⟨k₂,h₂,hrun⟩ := bind_ok.mp hrun
  obtain ⟨k₃,h₃,hrun⟩ := bind_ok.mp hrun
  simp only [Except.ok.injEq,Prod.mk.injEq] at hrun
  exact ⟨holds_transferKernel _ _,k₁,k₂,k₃,h₁,h₂,h₃,hrun⟩

end Kernel
end NachOS
