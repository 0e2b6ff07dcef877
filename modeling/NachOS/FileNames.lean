import NachOS.FailedCalls
import NachOS.StringCalls

/-! The names of files that a user program gives to Create, Open and Remove. -/
namespace NachOS

open StateMachine hiding Machine
open Memory Stub Hardware

/-- The system calls that take the name of a file. -/
inductive NameCall
  | create | openFile | remove
  deriving DecidableEq, Repr

namespace NameCall

open Kernel

def handler : NameCall → Kernel → Except Fault Kernel
  | .create => SystemCallCreate
  | .openFile => SystemCallOpen
  | .remove => SystemCallRemove

/-- What a call asks of the file system. -/
def operation (fs : Stub.FileSystem) (name : Path) (accessType : ℤ) :
    NameCall → Except Fault (ℤ × Stub.FileSystem)
  | .create => SysCreate fs name
  | .openFile => return SysOpen fs name accessType
  | .remove => return SysRemove fs name

/-- The name that all three hand to the file system. -/
def nameArgument (k : Kernel) : Except Fault (Path × Kernel) := do
  let virtAddr ← k.ReadRegister 4
  let (buffer,k) ← k.User2System virtAddr MAX_SIZE false
  return (path buffer,k)

variable {k l : Kernel} {name p q : List Byte}

theorem handler_eq {k₁ : Kernel} (c : NameCall) (h : nameArgument k = .ok (name,k₁)) :
    c.handler k = c.operation k.fileSystem name (k.machine.registers 5).toInt >>= fun r =>
      .ok (k₁.answer r.1 r.2) := by
  obtain ⟨virtAddr,haddr,h⟩ := bind_ok.mp h
  obtain ⟨⟨buffer,k₂⟩,hcopy,h⟩ := bind_ok.mp h
  obtain ⟨rfl,rfl⟩ := Prod.mk.inj (Except.ok.inj h)
  have hfiles := (OnlyMachine.of_User2System hcopy).fileSystem
  have hanswer : ∀ r : ℤ × Stub.FileSystem,
      WriteRegister { k₂ with fileSystem := r.2 } 2 r.1 = .ok (k₂.answer r.1 r.2) :=
    fun r => WriteRegister_of_lt _ _ (by decide)
  cases c with
  | create =>
    simp only [handler,SystemCallCreate,haddr,hcopy,hfiles,operation,hanswer,bind,Except.bind]
  | openFile =>
    simp only [handler,SystemCallOpen,haddr,ReadRegister_of_lt k (show 5 < NumTotalRegs by decide),
      hcopy,hfiles,operation,hanswer,bind,Except.bind,pure,Except.pure]
  | remove =>
    simp only [handler,SystemCallRemove,haddr,hcopy,hfiles,operation,hanswer,bind,Except.bind,
      pure,Except.pure]

/-- The call does to the files what it should do for `name`. -/
def Passes (k : Kernel) (name : Path) (c : NameCall) : Prop :=
  ∃ k₁, nameArgument k = .ok (name,k₁) ∧
    c.handler k = c.operation k.fileSystem name (k.machine.registers 5).toInt >>= fun r =>
      .ok (k₁.answer r.1 r.2)

/-- The call returns -1 and does nothing. -/
def Fails (k : Kernel) (c : NameCall) : Prop :=
  ∃ k', c.handler k = .ok k' ∧ k'.machine.registers 2 = -1 ∧
    k.fileSystem.SameFiles k'.fileSystem

/-- Of a string that is too long the first characters are handed on. -/
theorem nameArgument_string (hp : HoldsString k.machine.user (k.machine.registers 4) p) :
    ∃ k₁, nameArgument k = .ok (p.take MAX_SIZE,k₁) ∧ Sees k k₁ k.machine.user := by
  obtain ⟨k₁,hcopy,hsees,_⟩ := User2SystemReads_string (n := MAX_SIZE) hp (by decide)
  have hpath : path (ofList (p.take MAX_SIZE)) = p.take MAX_SIZE := by
    have hspells : Spells (ofList (p.take MAX_SIZE)) (p.take MAX_SIZE) :=
      ⟨fun _ _ => rfl,fun hz => hp.nonzero (List.mem_of_mem_take hz)⟩
    rw [path,hspells.cString_take,List.take_take,min_self]
  refine ⟨k₁,?_,hsees⟩
  unfold nameArgument
  rw [ReadRegister_of_lt k (by decide)]
  simp only [bind,Except.bind,User2System_of_reads hcopy,pure,Except.pure,hpath]

theorem passes_take (hp : HoldsString k.machine.user (k.machine.registers 4) p) (c : NameCall) :
    c.Passes k (p.take MAX_SIZE) := by
  obtain ⟨k₁,hname,_⟩ := nameArgument_string hp
  exact ⟨k₁,hname,c.handler_eq hname⟩

theorem Passes.unique {c d : NameCall} {name' : Path} (h : c.Passes k name)
    (h' : d.Passes k name') : name = name' := by
  obtain ⟨k₁,hk₁,_⟩ := h
  obtain ⟨k₂,hk₂,_⟩ := h'
  exact (Prod.mk.inj (Except.ok.inj (hk₁.symm.trans hk₂))).1

/-- `Create` with a name does not return -1. -/
theorem create_not_fails (h : create.Passes k name) (hname : name ≠ []) : ¬ create.Fails k := by
  rintro ⟨k',hk',hresult,_⟩
  obtain ⟨k₁,_,hcall⟩ := h
  rw [hcall] at hk'
  obtain ⟨⟨r,fs⟩,hr,hk'⟩ := bind_ok.mp hk'
  cases hk'
  obtain ⟨rfl,_⟩ := SysCreate_created hname hr
  rw [answer_result] at hresult
  exact absurd hresult (show ¬ BitVec.ofInt 32 0 = -1 by decide)

/-- Each call acts on the file of that name, or fails. -/
def Unaltered (k : Kernel) (p : Path) : Prop := ∀ c : NameCall, c.Passes k p ∨ c.Fails k

theorem unaltered_iff (hp : HoldsString k.machine.user (k.machine.registers 4) p) :
    Unaltered k p ↔ p.length ≤ MAX_SIZE := by
  constructor
  · intro h
    by_contra hlong
    have hcut := passes_take hp .create
    have hlen : (p.take MAX_SIZE).length = MAX_SIZE := by
      rw [List.length_take]
      omega
    rcases h .create with hpass | hfail
    · have hlt : (p.take MAX_SIZE).length < p.length := by omega
      exact absurd (congrArg List.length (hpass.unique hcut)) (by omega)
    · refine create_not_fails hcut ?_ hfail
      rw [← List.length_pos_iff,hlen]
      decide
  · intro hlen c
    have hpass := passes_take hp c
    rw [List.take_of_length_le hlen] at hpass
    exact Or.inl hpass

/-- The names that two user programs give are handed on as they are, and different ones as
different names, just if neither is longer than the buffer. -/
theorem names_unaltered_iff (hp : HoldsString k.machine.user (k.machine.registers 4) p)
    (hq : HoldsString l.machine.user (l.machine.registers 4) q) :
    (Unaltered k p ∧ Unaltered l q ∧
      (p ≠ q → ∀ c d : NameCall, ∀ name, c.Passes k name → ¬ d.Passes l name)) ↔
      p.length ≤ MAX_SIZE ∧ q.length ≤ MAX_SIZE := by
  rw [unaltered_iff hp,unaltered_iff hq]
  constructor
  · rintro ⟨hp',hq',_⟩
    exact ⟨hp',hq'⟩
  · rintro ⟨hp',hq'⟩
    refine ⟨hp',hq',fun hne c d name hc hd => hne ?_⟩
    have hpass := passes_take hp c
    have hpass' := passes_take hq d
    rw [List.take_of_length_le hp'] at hpass
    rw [List.take_of_length_le hq'] at hpass'
    exact (hpass.unique hc).trans (hd.unique hpass')

theorem names_unaltered_iff_letters :
    Unaltered (transferKernel 97#8 0#8) [97#8] ∧ Unaltered (transferKernel 98#8 0#8) [98#8] ∧
    ([97#8] ≠ [98#8] → ∀ c d : NameCall, ∀ name, c.Passes (transferKernel 97#8 0#8) name →
      ¬ d.Passes (transferKernel 98#8 0#8) name) :=
  (names_unaltered_iff ⟨by decide,holds_transferKernel 97#8 0#8⟩
    ⟨by decide,holds_transferKernel 98#8 0#8⟩).mpr ⟨by decide,by decide⟩

/-! Long names. -/

/-- The path "./" 511 times, "ab" and one more character. -/
def longPath (c : Byte) (i : ℕ) : Byte :=
  if i < 1022 then if i % 2 = 0 then 46#8 else 47#8
  else if i = 1022 then 97#8 else if i = 1023 then 98#8 else if i = 1024 then c else 0#8

def longString (c : Byte) : List Byte := (List.range 1025).map (longPath c)

/-- A user program with nine pages that has this path at address 0. -/
def longName (c : Byte) : Kernel :=
  let m : Hardware.Machine := ⟨fun _ => 0,longPath c,.unset⟩
  { exampleKernel 0 with machine := (AddrSpace.new m 9).1.RestoreState m }

theorem longName_user (c : Byte) {j : ℕ} (hj : j < 1152) :
    (longName c).machine.user (0 + BitVec.ofNat 32 j) = some (longPath c j) := by
  have hx : (0 + BitVec.ofNat 32 j : BitVec 32).toNat = j := by
    bv_omega
  have hphysical : (longName c).machine.translation.physical (0 + BitVec.ofNat 32 j) false =
      .ok (j / PageSize,j) := by
    refine (AddrSpace.physical_new _ _ (by decide) false).trans ?_
    rw [hx]
    exact if_pos hj
  rw [Machine.user,Translation.address_of_physical hphysical]
  rfl

theorem longName_holds {c : Byte} (hc : c ≠ 0#8) :
    HoldsString (longName c).machine.user ((longName c).machine.registers 4) (longString c) := by
  constructor
  · intro hz
    obtain ⟨i,hi,hz⟩ := List.mem_map.mp hz
    have hlt := List.mem_range.mp hi
    unfold longPath at hz
    split_ifs at hz with _ _ _ _ _
    · exact absurd hz (by decide)
    · exact absurd hz (by decide)
    · exact absurd hz (by decide)
    · exact absurd hz (by decide)
    · exact hc hz
    · omega
  · have hstring : longString c ++ [0#8] = (List.range 1026).map (longPath c) := by
      rw [List.range_succ,List.map_append]
      rfl
    intro j d hj
    rw [hstring,List.getElem?_map,Option.map_eq_some_iff] at hj
    obtain ⟨i,hi,rfl⟩ := hj
    obtain ⟨hlt,rfl⟩ := List.getElem?_eq_some_iff.mp hi
    rw [List.length_range] at hlt
    rw [List.getElem_range]
    exact longName_user c (by omega)

theorem longString_take (c : Byte) :
    (longString c).take MAX_SIZE = (List.range 1024).map (longPath 0#8) := by
  rw [longString,← List.map_take,List.take_range]
  refine List.map_congr_left fun i hi => ?_
  have hlt : i < 1024 := List.mem_range.mp hi
  unfold longPath
  split_ifs <;> first | rfl | omega

/-- Two paths that differ in their last character only reach the file system as the same
name, and the file that Create makes is neither of them. -/
theorem long_names_collide : longString 99#8 ≠ longString 100#8 ∧
    HoldsString (longName 99#8).machine.user ((longName 99#8).machine.registers 4)
      (longString 99#8) ∧
    HoldsString (longName 100#8).machine.user ((longName 100#8).machine.registers 4)
      (longString 100#8) ∧
    ∃ name, name ≠ longString 99#8 ∧ name ≠ longString 100#8 ∧
      (∀ c : NameCall, c.Passes (longName 99#8) name ∧ c.Passes (longName 100#8) name) ∧
      ∃ k', (longName 99#8).SystemCallCreate = .ok k' ∧ k'.machine.registers 2 = 0 ∧
        (k'.fileSystem.host.names name).isSome = true := by
  have hlen : ((List.range 1024).map (longPath 0#8)).length = 1024 := by
    rw [List.length_map,List.length_range]
  have hlong : ∀ c, (longString c).length = 1025 := by
    intro c
    rw [longString,List.length_map,List.length_range]
  have hne : ∀ c, (List.range 1024).map (longPath 0#8) ≠ longString c := by
    intro c he
    have hlens := congrArg List.length he
    rw [hlen,hlong] at hlens
    omega
  have hpasses : ∀ {c} (d : NameCall), c ≠ 0#8 →
      d.Passes (longName c) ((List.range 1024).map (longPath 0#8)) := by
    intro c d hc
    rw [← longString_take c]
    exact passes_take (longName_holds hc) d
  have hname : (List.range 1024).map (longPath 0#8) ≠ [] := by
    rw [← List.length_pos_iff,hlen]
    decide
  refine ⟨?_,longName_holds (by decide),longName_holds (by decide),_,hne _,hne _,
    fun c => ⟨hpasses c (by decide),hpasses c (by decide)⟩,?_⟩
  · intro he
    have hlast := congrArg (fun p => p[1024]?) he
    simp [longString,longPath] at hlast
  · obtain ⟨k₁,_,hcall⟩ := hpasses (c := 99#8) create (by decide)
    have hcreatable : Creatable (longName 99#8).fileSystem
        ((List.range 1024).map (longPath 0#8)) := by
      refine ⟨⟨3,10⟩,⟨rfl,rfl,nofun,fun _ => ⟨rfl,hname,rfl⟩⟩,nofun⟩
    obtain ⟨⟨r,fs⟩,hr⟩ := (SysCreate_ok_iff hname).mpr hcreatable
    obtain ⟨rfl,i,hi,_⟩ := SysCreate_created hname hr
    refine ⟨k₁.answer 0 fs,hcall.trans (bind_ok.mpr ⟨_,hr,rfl⟩),answer_result ..,?_⟩
    rw [answer_fileSystem,hi]
    rfl

end NameCall
end NachOS
