import NachOS.FileNames
import NachOS.Offsets

/-! The user program that copies a file (test/copy.c), on the stub file system. -/
namespace NachOS

open StateMachine hiding Machine
open Memory Stub Hardware

namespace Host

/-- Writing on where the part that was written already ends. -/
theorem overwrite_next (old done bs : List Byte) :
    overwrite (done ++ old.drop done.length) bs done.length =
      done ++ bs ++ old.drop (done.length + bs.length) := by
  unfold overwrite
  split
  · next hnil => simp [hnil]
  · have hgap : done.length - (done ++ old.drop done.length).length = 0 := by
      rw [List.length_append]
      omega
    rw [hgap,List.take_left,List.drop_append,List.drop_of_length_le (by omega),List.drop_drop]
    simp

end Host

namespace Kernel

/-! One request. -/

theorem open_request {k : Kernel} {x : BitVec 32} {name : Path}
    (hname : HoldsString k.machine.user x name) (hlen : name.length ≤ MAX_SIZE)
    (accessType : BitVec 32) :
    ∃ k', k.request SC_Open x accessType 0 = .ok k' ∧ k'.machine.user = k.machine.user ∧
      k'.machine.translation.physical = k.machine.translation.physical ∧
      k'.machine.registers 2 =
        BitVec.ofInt 32 (SysOpen k.fileSystem name accessType.toInt).1 ∧
      k'.fileSystem = (SysOpen k.fileSystem name accessType.toInt).2 := by
  have hsees := k.requested_sees .openFile SC_Open x accessType 0
  have hname' : HoldsString (k.requested .openFile SC_Open x accessType 0).machine.user
      ((k.requested .openFile SC_Open x accessType 0).machine.registers 4) name := by
    rwa [hsees.user,requested_arg₁]
  obtain ⟨k₁,harg,hsees₁⟩ := NameCall.nameArgument_string hname'
  have hcall := NameCall.handler_eq .openFile harg
  rw [List.take_of_length_le hlen,requested_arg₂,hsees.fileSystem] at hcall
  refine ⟨_,(request_ok (f := .openFile) rfl).mpr ⟨_,hcall,rfl⟩,?_⟩
  refine ⟨hsees₁.user,hsees₁.physical,?_,rfl⟩
  rw [advance_result,answer_result]

theorem close_request {k : Kernel} {fd : BitVec 32} {n i p : ℕ} {access : Access}
    (hs : k.fileSystem.Positioned fd.toInt n i access p) :
    ∃ k', k.request SC_Close fd 0 0 = .ok k' ∧
      k.fileSystem.OnlyDescriptor k'.fileSystem fd.toInt n ∧
      k'.fileSystem.host.contents = k.fileSystem.host.contents := by
  obtain ⟨fs,hclose,honly,hcontents⟩ := SysClose_positioned hs
  have hcall : SystemCallClose (k.requested .close SC_Close fd 0 0) =
      .ok ((k.requested .close SC_Close fd 0 0).answer 0 fs) := by
    refine bind_ok.mpr ⟨_,ReadRegister_of_lt _ (by decide),?_⟩
    rw [requested_arg₁]
    refine bind_ok.mpr ⟨_,hclose,?_⟩
    exact WriteRegister_of_lt _ _ (by decide)
  exact ⟨_,(request_ok (f := .close) rfl).mpr ⟨_,hcall,rfl⟩,honly,hcontents⟩

/-- Read of bytes without NUL delivers all of them. -/
theorem read_positioned {k : Kernel} (hapart : k.machine.translation.Apart)
    {x fd : BitVec 32} {n i p m : ℕ} {access : Access}
    (hs : k.fileSystem.Positioned fd.toInt n i access p) (hacc : access ≠ .writeOnly)
    (hfile : (k.fileSystem.host.contents i).length ≤ Host.limit)
    (hp : p ≤ (k.fileSystem.host.contents i).length) (hm : m < 2 ^ 31)
    (hwritable : ∀ j < m, k.machine.translation.Writable (x + BitVec.ofNat 32 j))
    {bs : List Byte} (hbs : bs = ((k.fileSystem.host.contents i).drop p).take m)
    (hNUL : 0#8 ∉ bs) :
    ∃ k', k.request SC_Read x (BitVec.ofNat 32 m) fd = .ok k' ∧
      (k'.machine.registers 2).toInt = bs.length ∧ Holds k'.machine.user x bs ∧
      k'.machine.translation.physical = k.machine.translation.physical ∧
      k'.fileSystem.Positioned fd.toInt n i access (p + bs.length) ∧
      k.fileSystem.OnlyDescriptor k'.fileSystem fd.toInt n ∧
      k'.fileSystem.host.contents = k.fileSystem.host.contents := by
  obtain ⟨fs,hread,hpos,honly,hcontents⟩ := SysRead_positioned hs hacc hfile hp hbs
  have hfd : 2 ≤ fd.toInt := (get_eq_some hs.slot).1
  have hlen : bs.length ≤ m := hbs ▸ List.length_take_le _ _
  obtain ⟨count,k₁,hcopy,hcall⟩ := SystemCallRead_eq
    (k := k.requested .read SC_Read x (BitVec.ofNat 32 m) fd) (by rwa [requested_arg₃])
    (by rw [requested_arg₂,toInt_ofNat_of_lt hm]) (by rwa [requested_arg₃]) hlen
    (by rwa [requested_arg₁])
  rw [requested_arg₁] at hcopy
  have hsees := System2User_sees (k := { (k.requested .read SC_Read x (BitVec.ofNat 32 m)
    fd).alloc.2 with fileSystem := fs }) hapart (by omega) hcopy
  have htail : TailHolds k.machine.user x bs :=
    fun j _ _ _ hj _ => absurd (List.mem_of_getElem? hj) hNUL
  refine ⟨_,(request_ok (f := .read) rfl).mpr ⟨_,hcall,rfl⟩,?_,?_,hsees.physical,?_⟩
  · rw [advance_result,setRegister_registers,Function.update_self,toInt_ofInt_natCast (by omega)]
  · have hview : k₁.machine.user = _ := hsees.user
    show Holds k₁.machine.user x bs
    rw [hview]
    exact (holds_overlay_iff (fun j c hj => fill_eq hj) (by omega)).mpr htail
  · have hfs : k₁.fileSystem = fs := hsees.fileSystem
    subst hfs
    exact ⟨hpos,honly,hcontents⟩

theorem write_positioned {k : Kernel} {x fd : BitVec 32} {n i p : ℕ} {bs : List Byte}
    (hs : k.fileSystem.Positioned fd.toInt n i .readWrite p) (hlen : bs.length + 1 < 2 ^ 31)
    (hroom : p + bs.length ≤ Host.limit) (hbs : Holds k.machine.user x bs) :
    ∃ k', k.request SC_Write x (BitVec.ofNat 32 bs.length) fd = .ok k' ∧
      k'.machine.translation.physical = k.machine.translation.physical ∧
      k'.fileSystem.Positioned fd.toInt n i .readWrite (p + bs.length) ∧
      k.fileSystem.OnlyDescriptor k'.fileSystem fd.toInt n ∧
      k'.fileSystem.host.contents = Function.update k.fileSystem.host.contents i
        (Host.overwrite (k.fileSystem.host.contents i) bs p) := by
  have hfd : 2 ≤ fd.toInt := (get_eq_some hs.slot).1
  obtain ⟨k₁,buffer,hsees,hbytes,hcall⟩ := SystemCallWrite_eq
    (k := k.requested .write SC_Write x (BitVec.ofNat 32 bs.length) fd) bs
    (by rwa [requested_arg₃]) (by rw [requested_arg₂,toInt_ofNat_of_lt (by omega)]) hlen
    (by rwa [requested_arg₁])
  obtain ⟨fs,hwrite,hpos,honly,hcontents⟩ := SysWrite_positioned hs rfl buffer hroom
  rw [hbytes] at hcontents
  rw [requested_arg₃] at hcall
  refine ⟨_,(request_ok (f := .write) rfl).mpr ⟨_,hcall.trans (bind_ok.mpr ⟨_,hwrite,rfl⟩),rfl⟩,?_⟩
  exact ⟨hsees.physical,hpos,honly,hcontents⟩

/-! The program. -/

/-- The loop of `main`, at most `n` rounds of it. -/
def copyLoop (buffer fd1 fd2 : BitVec 32) (k : Kernel) : ℕ → Except Fault Kernel
  | 0 => .error .blocked
  | n + 1 => do
    let k ← k.request SC_Read buffer 256 fd1
    let count := k.machine.registers 2
    if 0 < count.toInt then
      let k ← k.request SC_Write buffer count fd2
      copyLoop buffer fd1 fd2 k n
    else
      return k

/-- The function `main` from the first `Open` to the `Halt` at its end.  The arguments are
the addresses of its arrays and of the message that a file cannot be opened. -/
def copyMain (filePath1 filePath2 buffer message : BitVec 32) (k : Kernel) (n : ℕ) :
    Except Fault Kernel := do
  let k ← k.request SC_Open filePath1 0 0
  let fd1 := k.machine.registers 2
  let k ← k.request SC_Open filePath2 1 0
  let fd2 := k.machine.registers 2
  if fd1 ≠ -1 ∧ fd2 ≠ -1 then
    let k ← copyLoop buffer fd1 fd2 k n
    let k ← k.request SC_Close fd1 0 0
    k.request SC_Close fd2 0 0
  else
    let k ← if fd1 ≠ -1 then k.request SC_Close fd1 0 0 else return k
    let k ← if fd2 ≠ -1 then k.request SC_Close fd2 0 0 else return k
    k.request SC_PrintString message 0 0

/-- The buffer is in the memory of the program. -/
structure HasBuffer (k : Kernel) (buffer : BitVec 32) : Prop where
  apart : k.machine.translation.Apart
  writable : ∀ j < 256, k.machine.translation.Writable (buffer + BitVec.ofNat 32 j)

theorem HasBuffer.congr {k k' : Kernel} {buffer : BitVec 32} (h : HasBuffer k buffer)
    (hphysical : k'.machine.translation.physical = k.machine.translation.physical) :
    HasBuffer k' buffer :=
  ⟨h.apart.congr hphysical,fun j hj => (h.writable j hj).congr hphysical⟩

/-- The loop is at `p` of the file that it reads and at `q` of the one that it writes. -/
structure Transferring (fs : Stub.FileSystem) (fd1 fd2 : ℤ) (n₁ n₂ src dst p q : ℕ) : Prop where
  reading : fs.Positioned fd1 n₁ src .readOnly p
  writing : fs.Positioned fd2 n₂ dst .readWrite q
  slots : fd1 ≠ fd2
  descriptors : n₁ ≠ n₂
  inside : p ≤ (fs.host.contents src).length
  limit : (fs.host.contents src).length ≤ Host.limit

theorem length_part {source bs : List Byte} {p : ℕ} (hbs : bs = (source.drop p).take 256) :
    bs.length = min 256 (source.length - p) := by
  rw [hbs,List.length_take,List.length_drop]

theorem part_eq_take {source bs : List Byte} {p m : ℕ} (hbs : bs = (source.drop p).take m) :
    bs = (source.drop p).take bs.length := by
  rw [hbs,List.length_take,List.take_eq_take_iff]
  omega

theorem not_mem_part {source bs : List Byte} {p : ℕ} (hNUL : 0#8 ∉ source)
    (hbs : bs = (source.drop p).take 256) : 0#8 ∉ bs := by
  rw [hbs]
  exact fun hz => hNUL (List.mem_of_mem_drop (List.mem_of_mem_take hz))

section Loop

variable {k : Kernel} {buffer fd1 fd2 : BitVec 32} {n₁ n₂ src dst p q : ℕ} {bs : List Byte}
  (hbuffer : HasBuffer k buffer)
  (h : Transferring k.fileSystem fd1.toInt fd2.toInt n₁ n₂ src dst p q)
  (hbs : bs = ((k.fileSystem.host.contents src).drop p).take 256) (hNUL : 0#8 ∉ bs)

include hbuffer h hbs hNUL

theorem Transferring.read : ∃ k₁, k.request SC_Read buffer 256 fd1 = .ok k₁ ∧
    k₁.machine.registers 2 = BitVec.ofNat 32 bs.length ∧ Holds k₁.machine.user buffer bs ∧
    HasBuffer k₁ buffer ∧
    Transferring k₁.fileSystem fd1.toInt fd2.toInt n₁ n₂ src dst (p + bs.length) q ∧
    k₁.fileSystem.host.contents = k.fileSystem.host.contents ∧
    k₁.fileSystem.host.names = k.fileSystem.host.names := by
  have hlen := length_part hbs
  have hinside := h.inside
  obtain ⟨k₁,hread,hcount,hholds,hphysical,hpos,honly,hcontents⟩ :=
    read_positioned hbuffer.apart h.reading nofun h.limit h.inside (m := 256) (by decide)
      hbuffer.writable hbs hNUL
  refine ⟨k₁,hread,?_,hholds,hbuffer.congr hphysical,⟨hpos,?_,h.slots,h.descriptors,?_,?_⟩,
    hcontents,honly.names⟩
  · rw [← BitVec.toInt_inj,hcount,toInt_ofNat_of_lt (by omega)]
  · exact honly.positioned h.slots.symm h.descriptors.symm h.writing
  · rw [hcontents]
    omega
  · rw [hcontents]
    exact h.limit

/-- The last round reads nothing. -/
theorem copyLoop_end (hend : p = (k.fileSystem.host.contents src).length) :
    ∃ k', (∀ n, copyLoop buffer fd1 fd2 k (n + 1) = .ok k') ∧
      Transferring k'.fileSystem fd1.toInt fd2.toInt n₁ n₂ src dst p q ∧
      k'.fileSystem.host.contents = k.fileSystem.host.contents ∧
      k'.fileSystem.host.names = k.fileSystem.host.names := by
  have hzero : bs.length = 0 := by
    have hlen := length_part hbs
    omega
  obtain ⟨k₁,hread,hcount,_,_,h₁,hcontents,hnames⟩ := h.read hbuffer hbs hNUL
  rw [hzero] at hcount h₁
  refine ⟨k₁,fun n => bind_ok.mpr ⟨k₁,hread,?_⟩,h₁,hcontents,hnames⟩
  rw [hcount]
  rfl

/-- Any other round goes on with the write. -/
theorem Transferring.read_more (hmore : p < (k.fileSystem.host.contents src).length) :
    ∃ k₁, (∀ n, copyLoop buffer fd1 fd2 k (n + 1) =
        k₁.request SC_Write buffer (BitVec.ofNat 32 bs.length) fd2 >>= fun k₂ =>
          copyLoop buffer fd1 fd2 k₂ n) ∧ Holds k₁.machine.user buffer bs ∧
      HasBuffer k₁ buffer ∧
      Transferring k₁.fileSystem fd1.toInt fd2.toInt n₁ n₂ src dst (p + bs.length) q ∧
      k₁.fileSystem.host.contents = k.fileSystem.host.contents ∧
      k₁.fileSystem.host.names = k.fileSystem.host.names := by
  have hlen := length_part hbs
  obtain ⟨k₁,hread,hcount,hrest⟩ := h.read hbuffer hbs hNUL
  refine ⟨k₁,fun n => ?_,hrest⟩
  have hpositive : 0 < (BitVec.ofNat 32 bs.length).toInt := by
    rw [toInt_ofNat_of_lt (by omega)]
    omega
  rw [copyLoop,bind_of_ok hread]
  simp only [hcount,if_pos hpositive]

theorem copyLoop_round (hmore : p < (k.fileSystem.host.contents src).length)
    (hroom : q + bs.length ≤ Host.limit) :
    ∃ k', (∀ n, copyLoop buffer fd1 fd2 k (n + 1) = copyLoop buffer fd1 fd2 k' n) ∧
      HasBuffer k' buffer ∧
      Transferring k'.fileSystem fd1.toInt fd2.toInt n₁ n₂ src dst (p + bs.length)
        (q + bs.length) ∧
      k'.fileSystem.host.contents = Function.update k.fileSystem.host.contents dst
        (Host.overwrite (k.fileSystem.host.contents dst) bs q) ∧
      k'.fileSystem.host.names = k.fileSystem.host.names := by
  have hlen := length_part hbs
  obtain ⟨k₁,hloop,hholds,hbuffer₁,h₁,hcontents₁,hnames₁⟩ := h.read_more hbuffer hbs hNUL hmore
  obtain ⟨k₂,hwrite,hphysical,hpos,honly,hcontents₂⟩ :=
    write_positioned h₁.writing (by omega) hroom hholds
  rw [hcontents₁] at hcontents₂
  -- the file that is read may be the one that grows
  have hlength : (k.fileSystem.host.contents src).length ≤
        (k₂.fileSystem.host.contents src).length ∧
      (k₂.fileSystem.host.contents src).length ≤ Host.limit := by
    have hlimit := h.limit
    rw [hcontents₂]
    by_cases hsame : src = dst
    · rw [hsame,Function.update_self,Host.length_overwrite]
      rw [hsame] at hlimit
      split <;> omega
    · rw [Function.update_of_ne hsame]
      exact ⟨le_rfl,hlimit⟩
  refine ⟨k₂,fun n => ?_,hbuffer₁.congr hphysical,⟨?_,hpos,h.slots,h.descriptors,?_,hlength.2⟩,
    hcontents₂,honly.names.trans hnames₁⟩
  · rw [hloop n,bind_of_ok hwrite]
  · exact honly.positioned h.slots h.descriptors h₁.reading
  · omega

/-- Beyond the limit of the host the write fails. -/
theorem copyLoop_full (hmore : p < (k.fileSystem.host.contents src).length)
    (hfull : Host.limit < q + bs.length) (n : ℕ) (k' : Kernel) :
    copyLoop buffer fd1 fd2 k (n + 1) ≠ .ok k' := by
  have hlen := length_part hbs
  obtain ⟨k₁,hloop,hholds,hbuffer₁,h₁,_⟩ := h.read_more hbuffer hbs hNUL hmore
  intro hrun
  rw [hloop n] at hrun
  obtain ⟨k₂,hwrite,_⟩ := bind_ok.mp hrun
  have hroom := ((write_request hbuffer₁.apart (get_eq_some h₁.writing.slot).1 (by omega) hholds
    h₁.writing.readWrite).2 k₂ hwrite).1
  omega

end Loop

/-- The first `p` bytes are copied: both descriptors are at `p`, and the destination has the
rest of its `old` contents from there on. -/
structure Copying (fs : Stub.FileSystem) (fd1 fd2 : ℤ) (n₁ n₂ src dst : ℕ)
    (source old : List Byte) (p : ℕ) : Prop where
  reading : fs.Positioned fd1 n₁ src .readOnly p
  writing : fs.Positioned fd2 n₂ dst .readWrite p
  slots : fd1 ≠ fd2
  descriptors : n₁ ≠ n₂
  contents : fs.host.contents src = source
  copy : fs.host.contents dst = source.take p ++ old.drop p
  same : src = dst → old = source
  inside : p ≤ source.length
  limit : source.length ≤ Host.limit

section Copy

variable {fs fs' : Stub.FileSystem} {fd1 fd2 : ℤ} {n₁ n₂ src dst p : ℕ}
  {source old bs : List Byte} (h : Copying fs fd1 fd2 n₁ n₂ src dst source old p)

include h

theorem Copying.transferring : Transferring fs fd1 fd2 n₁ n₂ src dst p p :=
  ⟨h.reading,h.writing,h.slots,h.descriptors,by rw [h.contents]; exact h.inside,
    by rw [h.contents]; exact h.limit⟩

/-- One round: what was read is what the next write adds. -/
theorem Copying.round {m : ℕ} (hbs : bs = (source.drop p).take m)
    (ht : Transferring fs' fd1 fd2 n₁ n₂ src dst (p + bs.length) (p + bs.length))
    (hcontents : fs'.host.contents = Function.update fs.host.contents dst
      (Host.overwrite (fs.host.contents dst) bs p)) :
    Copying fs' fd1 fd2 n₁ n₂ src dst source old (p + bs.length) := by
  have hle : p + bs.length ≤ source.length := by
    have hlen := congrArg List.length hbs
    rw [List.length_take,List.length_drop] at hlen
    have hinside := h.inside
    omega
  have hdone : (source.take p).length = p := by
    rw [List.length_take]
    exact min_eq_left h.inside
  have htake : source.take p ++ bs = source.take (p + bs.length) := by
    rw [List.take_add,← part_eq_take hbs]
  have hcopy : fs'.host.contents dst =
      source.take (p + bs.length) ++ old.drop (p + bs.length) := by
    have hnext := Host.overwrite_next old (source.take p) bs
    rw [hdone] at hnext
    rw [hcontents,Function.update_self,h.copy,hnext,htake]
  refine ⟨ht.reading,ht.writing,h.slots,h.descriptors,?_,hcopy,h.same,hle,h.limit⟩
  by_cases hsame : src = dst
  · rw [hsame,hcopy,h.same hsame,List.take_append_drop]
  · rw [hcontents,Function.update_of_ne hsame,h.contents]

end Copy

/-- The loop ends, and then all bytes are copied. -/
theorem copyLoop_copies {k : Kernel} {buffer fd1 fd2 : BitVec 32} {n₁ n₂ src dst p : ℕ}
    {source old : List Byte} (hbuffer : HasBuffer k buffer) (hNUL : 0#8 ∉ source)
    (h : Copying k.fileSystem fd1.toInt fd2.toInt n₁ n₂ src dst source old p) :
    ∃ k', (∀ n, source.length - p < n → copyLoop buffer fd1 fd2 k n = .ok k') ∧
      Copying k'.fileSystem fd1.toInt fd2.toInt n₁ n₂ src dst source old source.length ∧
      k'.fileSystem.host.names = k.fileSystem.host.names := by
  induction hd : source.length - p using Nat.strong_induction_on generalizing k p with
  | _ d ih =>
    have hinside := h.inside
    have hlimit := h.limit
    let bs := (source.drop p).take 256
    have hbs : bs = ((k.fileSystem.host.contents src).drop p).take 256 := by rw [h.contents]
    have hlen : bs.length = min 256 (source.length - p) := length_part rfl
    have hfree : 0#8 ∉ bs := not_mem_part hNUL rfl
    by_cases hend : p = source.length
    · -- nothing is left to read
      subst hend
      obtain ⟨k',hloop,ht,hcontents,hnames⟩ :=
        copyLoop_end hbuffer h.transferring hbs hfree (by rw [h.contents])
      refine ⟨k',fun n hn => ?_,?_,hnames⟩
      · obtain ⟨m,rfl⟩ : ∃ m, n = m + 1 := ⟨n - 1,by omega⟩
        exact hloop m
      · exact ⟨ht.reading,ht.writing,h.slots,h.descriptors,by rw [hcontents,h.contents],
          by rw [hcontents,h.copy],h.same,le_rfl,hlimit⟩
    · obtain ⟨k₂,hround,hbuffer₂,ht,hcontents,hnames₂⟩ := copyLoop_round hbuffer h.transferring hbs
        hfree (by rw [h.contents]; omega) (by omega)
      obtain ⟨k',hloop,hcopied,hnames⟩ := ih (source.length - (p + bs.length)) (by omega)
        hbuffer₂ (h.round rfl ht hcontents) rfl
      refine ⟨k',fun n hn => ?_,hcopied,hnames.trans hnames₂⟩
      obtain ⟨m,rfl⟩ : ∃ m, n = m + 1 := ⟨n - 1,by omega⟩
      rw [hround m]
      exact hloop m (by omega)

/-! The two files. -/

theorem Open_granted {s : Stub.FileSystem} {name : Path} {accessType : ℤ} {access : Access}
    {create : Bool} (hw : OpensWith accessType access create)
    (h : (SysOpen s name accessType).1 ≠ -1) :
    ∃ (j n i : ℕ) (host : Host), SysOpen s name accessType =
        ((j : ℤ),⟨Function.update s.fdTable j (some (.new n)),host⟩) ∧
      s.host.Opened name access create false n i host ∧ 2 ≤ j ∧ j < tableSize ∧
      s.fdTable j = none := by
  have hresult : OpenResult s name accessType (SysOpen s name accessType) :=
    Open_result s name accessType
  generalize SysOpen s name accessType = r at h hresult
  cases hresult with
  | unknown => exact absurd rfl h
  | refused => exact absurd rfl h
  | full => exact absurd rfl h
  | @installed access' create' n i j host hw' _ ho hj =>
    have hsame : access' = access ∧ create' = create := by
      rcases hw with ⟨rfl,rfl,rfl⟩ | ⟨rfl,rfl,rfl⟩
      · obtain ⟨_,ha,hc⟩ := hw'.resolve_right (by simp)
        exact ⟨ha,hc⟩
      · obtain ⟨_,ha,hc⟩ := hw'.resolve_left (by simp)
        exact ⟨ha,hc⟩
    obtain ⟨rfl,rfl⟩ := hsame
    obtain ⟨h₁,h₂,hnone,_⟩ := findSlot_some hj
    exact ⟨j,n,i,host,rfl,ho,h₁,h₂,hnone⟩

/-- Open has returned the descriptor `fd`, which is `n` of the host, for the file `i`. -/
structure OpenedAs (s s' : Stub.FileSystem) (name : Path) (access : Access) (create : Bool)
    (fd : ℤ) (n i : ℕ) : Prop where
  host : s.host.Opened name access create false n i s'.host
  position : s'.host.directory i = false → s'.Positioned fd n i access 0
  others : ∀ {fd' : ℤ} {n' i' p : ℕ} {access' : Access}, s.Positioned fd' n' i' access' p →
    s'.host.directory i' = s.host.directory i' →
    fd' ≠ fd ∧ n' ≠ n ∧ s'.Positioned fd' n' i' access' p

theorem SysOpen_openedAs {s : Stub.FileSystem} {name : Path} {accessType : ℤ} {access : Access}
    {create : Bool} (hw : OpensWith accessType access create)
    (h : (SysOpen s name accessType).1 ≠ -1) :
    ∃ (j n i : ℕ), (SysOpen s name accessType).1 = j ∧ j < tableSize ∧
      OpenedAs s (SysOpen s name accessType).2 name access create j n i := by
  obtain ⟨j,n,i,host,hopen,ho,hj,hlt,hfree⟩ := Open_granted hw h
  rw [hopen]
  refine ⟨j,n,i,rfl,hlt,ho,fun hdir => ⟨?_,⟨0,?_⟩,hdir⟩,fun {fd n' i' p access'} hs hdir => ?_⟩
  · unfold Stub.FileSystem.get
    rw [if_neg (by omega),Int.toNat_natCast]
    exact Function.update_self ..
  · exact (congrFun ho.fds n).trans (Function.update_self ..)
  · obtain ⟨offset,hfds⟩ := hs.description
    obtain ⟨_,_,hslot⟩ := get_eq_some hs.slot
    have hfd : fd.toNat ≠ j := by
      rintro rfl
      rw [hfree] at hslot
      cases hslot
    have hn : n' ≠ n := by
      rintro rfl
      rw [ho.free] at hfds
      cases hfds
    refine ⟨by omega,hn,?_,⟨offset,?_⟩,hdir.trans hs.regular⟩
    · rw [← hs.slot]
      unfold Stub.FileSystem.get
      dsimp only
      rw [Function.update_of_ne hfd]
    · exact (congrFun ho.fds n').trans ((Function.update_of_ne hn _ _).trans hfds)

theorem open_openedAs {k k' : Kernel} {x accessType : BitVec 32} {name : Path} {access : Access}
    {create : Bool} (hw : OpensWith accessType.toInt access create)
    (hname : HoldsString k.machine.user x name) (hlen : name.length < 256)
    (hopen : k.request SC_Open x accessType 0 = .ok k') (hfd : k'.machine.registers 2 ≠ -1) :
    k'.machine.user = k.machine.user ∧
      k'.machine.translation.physical = k.machine.translation.physical ∧
      ∃ n i, OpenedAs k.fileSystem k'.fileSystem name access create
        (k'.machine.registers 2).toInt n i := by
  obtain ⟨_,hrun,huser,hphysical,hresult,hfiles⟩ :=
    open_request hname (by simp only [MAX_SIZE]; omega) accessType
  obtain rfl := Except.ok.inj (hopen.symm.trans hrun)
  have hgranted : (SysOpen k.fileSystem name accessType.toInt).1 ≠ -1 := by
    intro he
    rw [hresult,he] at hfd
    exact hfd rfl
  obtain ⟨j,n,i,hj,hlt,ho⟩ := SysOpen_openedAs hw hgranted
  have hint : (k'.machine.registers 2).toInt = j := by
    simp only [tableSize] at hlt
    rw [hresult,hj,toInt_ofInt_natCast (by omega)]
  rw [← hfiles,← hint] at ho
  exact ⟨huser,hphysical,n,i,ho⟩

/-- What the program finds when both files are open. -/
theorem copying_start {s s₁ s₂ : Stub.FileSystem} {name₁ name₂ : Path} {fd1 fd2 : ℤ}
    {n₁ n₂ src i₁ dst : ℕ} (hhost : HostOk s.host) (hsrc : s.host.names name₁ = some src)
    (hdir : s.host.directory src = false)
    (h₁ : OpenedAs s s₁ name₁ .readOnly false fd1 n₁ i₁)
    (h₂ : OpenedAs s₁ s₂ name₂ .readWrite true fd2 n₂ dst) :
    ∃ old, Copying s₂ fd1 fd2 n₁ n₂ src dst (s.host.contents src) old 0 ∧
      s₂.host.names name₂ = some dst ∧
      (s.host.names name₂ = some dst ∧ old = s.host.contents dst ∨
        s.host.names name₂ = none ∧ old = []) := by
  have ho₂ := h₂.host
  obtain ⟨hi₁,hnames₁,hcontents₁,hdir₁,hused₁⟩ := h₁.host.existing
  obtain rfl : i₁ = src := Option.some.inj (hi₁.symm.trans hsrc)
  have hlimit := h₁.host.fits (by rw [hdir₁,hdir])
  have hused : s₁.host.used i₁ = true := by
    rw [hused₁]
    exact hhost.names _ _ hsrc
  obtain ⟨hsource,hregular₁⟩ := ho₂.kept hused
  obtain ⟨hregular₂,hfound⟩ := ho₂.forWriting
  rw [hcontents₁] at hlimit hsource
  rw [hnames₁,hcontents₁] at hfound
  obtain ⟨hslots,hfds,hreading⟩ := h₂.others (h₁.position (by rw [hdir₁,hdir])) hregular₁
  have hstart : ∀ old, s₂.host.contents dst = old → (i₁ = dst → old = s.host.contents i₁) →
      Copying s₂ fd1 fd2 n₁ n₂ i₁ dst (s.host.contents i₁) old 0 := by
    intro old hold hsame
    exact ⟨hreading,h₂.position hregular₂,hslots,hfds,hsource,by simpa using hold,hsame,
      Nat.zero_le _,hlimit⟩
  have hname₂ : s₂.host.names name₂ = some dst := by
    rw [ho₂.names,Function.update_self]
  rcases hfound with ⟨hi₂,hold⟩ | ⟨hi₂,hunused,hold⟩
  · refine ⟨_,hstart _ hold ?_,hname₂,Or.inl ⟨hi₂,rfl⟩⟩
    rintro rfl
    rfl
  · -- the new file is not the source, whose number is in use
    refine ⟨_,hstart _ hold ?_,hname₂,Or.inr ⟨hi₂,rfl⟩⟩
    rintro rfl
    rw [hused] at hunused
    cases hunused

/-- The whole program: it ends, and then the destination holds the source, followed by what
it held before beyond that length. -/
theorem copyMain_copies {k k₁ k₂ : Kernel} {filePath1 filePath2 buffer : BitVec 32}
    {name₁ name₂ : Path} {src : ℕ} (message : BitVec 32)
    (hapart : k.machine.translation.Apart)
    (hwritable : ∀ j < 256, k.machine.translation.Writable (buffer + BitVec.ofNat 32 j))
    (hname₁ : HoldsString k.machine.user filePath1 name₁) (hlen₁ : name₁.length < 256)
    (hname₂ : HoldsString k.machine.user filePath2 name₂) (hlen₂ : name₂.length < 256)
    (hhost : HostOk k.fileSystem.host) (hsrc : k.fileSystem.host.names name₁ = some src)
    (hdir : k.fileSystem.host.directory src = false)
    (hNUL : 0#8 ∉ k.fileSystem.host.contents src)
    (hopen₁ : k.request SC_Open filePath1 0 0 = .ok k₁) (hfd₁ : k₁.machine.registers 2 ≠ -1)
    (hopen₂ : k₁.request SC_Open filePath2 1 0 = .ok k₂) (hfd₂ : k₂.machine.registers 2 ≠ -1) :
    ∃ k' dst old, (∀ n, (k.fileSystem.host.contents src).length < n →
        copyMain filePath1 filePath2 buffer message k n = .ok k') ∧
      k'.fileSystem.host.names name₂ = some dst ∧
      k'.fileSystem.host.contents dst = k.fileSystem.host.contents src ++
        old.drop (k.fileSystem.host.contents src).length ∧
      (k.fileSystem.host.names name₂ = some dst ∧ old = k.fileSystem.host.contents dst ∨
        k.fileSystem.host.names name₂ = none ∧ old = []) := by
  obtain ⟨huser₁,hphysical₁,n₁,i₁,h₁⟩ :=
    open_openedAs (Or.inl ⟨rfl,rfl,rfl⟩) hname₁ hlen₁ hopen₁ hfd₁
  rw [← huser₁] at hname₂
  obtain ⟨_,hphysical₂,n₂,dst,h₂⟩ :=
    open_openedAs (Or.inr ⟨rfl,rfl,rfl⟩) hname₂ hlen₂ hopen₂ hfd₂
  obtain ⟨old,hcopying,hdst,hold⟩ := copying_start hhost hsrc hdir h₁ h₂
  have hbuffer : HasBuffer k₂ buffer :=
    HasBuffer.congr ⟨hapart,hwritable⟩ (hphysical₂.trans hphysical₁)
  obtain ⟨k₃,hloop,hcopied,hnames₃⟩ := copyLoop_copies hbuffer hNUL hcopying
  obtain ⟨k₄,hclose₁,honly₁,hcontents₄⟩ := close_request hcopied.reading
  obtain ⟨k₅,hclose₂,honly₂,hcontents₅⟩ := close_request
    (honly₁.positioned hcopied.slots.symm hcopied.descriptors.symm hcopied.writing)
  refine ⟨k₅,dst,old,fun n hn => ?_,?_,?_,hold⟩
  · refine bind_ok.mpr ⟨_,hopen₁,bind_ok.mpr ⟨_,hopen₂,?_⟩⟩
    rw [if_pos ⟨hfd₁,hfd₂⟩]
    exact bind_ok.mpr ⟨k₃,hloop n (by omega),bind_ok.mpr ⟨k₄,hclose₁,hclose₂⟩⟩
  · rw [honly₂.names,honly₁.names,hnames₃,hdst]
  · rw [hcontents₅,hcontents₄,hcopied.copy,List.take_length]

/-- The destination is a copy of the source just if it was not longer than the source
before. -/
theorem copy_iff {k k₁ k₂ : Kernel} {filePath1 filePath2 buffer : BitVec 32}
    {name₁ name₂ : Path} {src : ℕ} {source : List Byte} (message : BitVec 32)
    (hapart : k.machine.translation.Apart)
    (hwritable : ∀ j < 256, k.machine.translation.Writable (buffer + BitVec.ofNat 32 j))
    (hname₁ : HoldsString k.machine.user filePath1 name₁) (hlen₁ : name₁.length < 256)
    (hname₂ : HoldsString k.machine.user filePath2 name₂) (hlen₂ : name₂.length < 256)
    (hhost : HostOk k.fileSystem.host) (hsrc : k.fileSystem.host.names name₁ = some src)
    (hdir : k.fileSystem.host.directory src = false)
    (hsource : k.fileSystem.host.contents src = source) (hNUL : 0#8 ∉ source)
    (hopen₁ : k.request SC_Open filePath1 0 0 = .ok k₁) (hfd₁ : k₁.machine.registers 2 ≠ -1)
    (hopen₂ : k₁.request SC_Open filePath2 1 0 = .ok k₂) (hfd₂ : k₂.machine.registers 2 ≠ -1) :
    (∃ k', (∀ n, source.length < n →
        copyMain filePath1 filePath2 buffer message k n = .ok k') ∧
      ∃ dst, k'.fileSystem.host.names name₂ = some dst ∧
        k'.fileSystem.host.contents dst = source) ↔
      ∀ i, k.fileSystem.host.names name₂ = some i →
        (k.fileSystem.host.contents i).length ≤ source.length := by
  subst hsource
  obtain ⟨k',dst,old,hrun,hdst,hcopy,hold⟩ := copyMain_copies message hapart hwritable hname₁ hlen₁
    hname₂ hlen₂ hhost hsrc hdir hNUL hopen₁ hfd₁ hopen₂ hfd₂
  have hexact : k'.fileSystem.host.contents dst = k.fileSystem.host.contents src ↔
      old.length ≤ (k.fileSystem.host.contents src).length := by
    rw [hcopy,List.append_right_eq_self,List.drop_eq_nil_iff]
  have hlengths : (∀ i, k.fileSystem.host.names name₂ = some i →
      (k.fileSystem.host.contents i).length ≤ (k.fileSystem.host.contents src).length) ↔
      old.length ≤ (k.fileSystem.host.contents src).length := by
    rcases hold with ⟨hname,rfl⟩ | ⟨hname,rfl⟩
    · simp [hname]
    · simp [hname]
  rw [hlengths,← hexact]
  constructor
  · rintro ⟨k'',hrun',dst',hdst',hcontents⟩
    obtain rfl := Except.ok.inj ((hrun _ (Nat.lt_succ_self _)).symm.trans
      (hrun' _ (Nat.lt_succ_self _)))
    obtain rfl := Option.some.inj (hdst.symm.trans hdst')
    exact hcontents
  · intro hcontents
    exact ⟨k',hrun,dst,hdst,hcontents⟩

/-- A host with the file "a", which holds one byte, and the file "b". -/
def copyHost (old : List Byte) : Host where
  names := fun p => if p = [97#8] then some 1 else if p = [98#8] then some 2 else none
  contents := fun i => if i = 1 then [120#8] else old
  directory := fun _ => false
  used := fun i => decide (i < 3)
  fds := fun _ => none
  choices := fun n => some ⟨3 + n,10 + n⟩

/-- The program with these names at the addresses 0 and 2. -/
def copyKernel (old : List Byte) : Kernel :=
  { exampleKernel 0 with
    machine := { exampleMachine 0 with
      mainMemory := fun i => if i = 0 then 97#8 else if i = 2 then 98#8 else 0#8 }
    fileSystem := .new (copyHost old) }

theorem copyKernel_names (old : List Byte) :
    HoldsString (copyKernel old).machine.user 0 [97#8] ∧
    HoldsString (copyKernel old).machine.user 2 [98#8] := by
  refine ⟨⟨by decide,fun j c hj => ?_⟩,⟨by decide,fun j c hj => ?_⟩⟩
  all_goals match j with
    | 0 =>
      cases hj
      rfl
    | 1 =>
      cases hj
      rfl

theorem copyKernel_ok (old : List Byte) :
    HostOk (copyKernel old).fileSystem.host ∧ HasBuffer (copyKernel old) 256 := by
  refine ⟨⟨fun p i hi => ?_,nofun⟩,
    AddrSpace.apart_new (exampleMachine 0) (exampleMachine 0) (by decide),fun j hj => ?_⟩
  · change (if p = [97#8] then some 1 else if p = [98#8] then some 2 else none) = some i at hi
    split_ifs at hi <;> cases hi <;> rfl
  · apply AddrSpace.writable_new (exampleMachine 0) (exampleMachine 0) (by decide)
    have hx : (256 + BitVec.ofNat 32 j : BitVec 32).toNat = 256 + j := by
      bv_omega
    rw [hx]
    exact (show 256 + j < 1024 by omega)

theorem copy_iff_equal : ∃ k', (∀ n, 1 < n → copyMain 0 2 256 8 (copyKernel [121#8]) n = .ok k') ∧
    ∃ dst, k'.fileSystem.host.names [98#8] = some dst ∧
      k'.fileSystem.host.contents dst = [120#8] := by
  obtain ⟨hname₁,hname₂⟩ := copyKernel_names [121#8]
  obtain ⟨hhost,hbuffer⟩ := copyKernel_ok [121#8]
  have hopens : ∃ k₁ k₂, (copyKernel [121#8]).request SC_Open 0 0 0 = .ok k₁ ∧
      k₁.machine.registers 2 ≠ -1 ∧ k₁.request SC_Open 2 1 0 = .ok k₂ ∧
      k₂.machine.registers 2 ≠ -1 := ⟨_,_,rfl,by decide,rfl,by decide⟩
  obtain ⟨k₁,k₂,hopen₁,hfd₁,hopen₂,hfd₂⟩ := hopens
  have hsrc : (copyKernel [121#8]).fileSystem.host.names [97#8] = some 1 := rfl
  refine (copy_iff 8 hbuffer.apart hbuffer.writable hname₁ (by decide) hname₂ (by decide) hhost hsrc
    rfl rfl (by decide) hopen₁ hfd₁ hopen₂ hfd₂).mpr ?_
  intro i hi
  cases hi
  exact Nat.le_refl 1

/-- Of two bytes in the destination the second one stays when one byte is copied there. -/
theorem copy_keeps_rest : ∃ k', copyMain 0 2 256 8 (copyKernel [121#8,122#8]) 2 = .ok k' ∧
    k'.fileSystem.host.contents 1 = [120#8] ∧
    k'.fileSystem.host.names [98#8] = some 2 ∧
    k'.fileSystem.host.contents 2 = [120#8,122#8] := by
  have hrun : (copyMain 0 2 256 8 (copyKernel [121#8,122#8]) 2 >>= fun k' =>
      Except.ok (k'.fileSystem.host.contents 1,k'.fileSystem.host.names [98#8],
        k'.fileSystem.host.contents 2)).toOption =
      some ([120#8],some 2,[120#8,122#8]) := by
    decide +kernel
  obtain ⟨k',hk',hrun⟩ := bind_ok.mp (ok_of_toOption hrun)
  simp only [Except.ok.injEq,Prod.mk.injEq] at hrun
  exact ⟨k',hk',hrun⟩

end Kernel
end NachOS
