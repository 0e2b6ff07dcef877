import NachOS.CopyProgram

/-! The user program that appends a file to another one (test/concatenate.c), on the stub file
system. -/
namespace NachOS

open StateMachine hiding Machine
open Memory Stub Hardware

namespace Host

/-- The contents of the file with this name; a file that is not there counts as empty. -/
def fileAt (h : Host) (name : Path) : List Byte := (h.names name).elim [] h.contents

theorem overwrite_end (file bs : List Byte) : overwrite file bs file.length = file ++ bs := by
  have hnext := overwrite_next [] file bs
  simpa using hnext

end Host

namespace Kernel

/-- The function `main` from the first `Open` to the `Halt` at its end.  The arguments are the
addresses of its arrays and of the message that a file cannot be opened; the loop is that of
`copyMain`. -/
def concatenateMain (filePath1 filePath2 buffer message : BitVec 32) (k : Kernel) (n : ℕ) :
    Except Fault Kernel := do
  let k ← k.request SC_Open filePath1 1 0
  let fd1 := k.machine.registers 2
  let k ← k.request SC_Seek (-1) fd1 0
  let pos := k.machine.registers 2
  let k ← k.request SC_Open filePath2 0 0
  let fd2 := k.machine.registers 2
  if fd1 ≠ -1 ∧ fd2 ≠ -1 ∧ pos ≠ -1 then
    let k ← copyLoop buffer fd2 fd1 k n
    let k ← k.request SC_Close fd1 0 0
    k.request SC_Close fd2 0 0
  else
    let k ← if fd1 ≠ -1 then k.request SC_Close fd1 0 0 else return k
    let k ← if fd2 ≠ -1 then k.request SC_Close fd2 0 0 else return k
    k.request SC_PrintString message 0 0

theorem seek_end_request {k : Kernel} {fd : BitVec 32} {n i p : ℕ} {access : Access}
    (hs : k.fileSystem.Positioned fd.toInt n i access p)
    (hfile : (k.fileSystem.host.contents i).length ≤ Host.limit) :
    ∃ k', k.request SC_Seek (-1) fd 0 = .ok k' ∧ k'.machine.user = k.machine.user ∧
      k'.machine.translation.physical = k.machine.translation.physical ∧
      k'.machine.registers 2 = BitVec.ofInt 32 (k.fileSystem.host.contents i).length ∧
      k'.fileSystem.Positioned fd.toInt n i access (k.fileSystem.host.contents i).length ∧
      k.fileSystem.OnlyDescriptor k'.fileSystem fd.toInt n ∧
      k'.fileSystem.host.contents = k.fileSystem.host.contents := by
  obtain ⟨fs,hseek,hpos,honly,hcontents⟩ := SysSeek_positioned hs hfile
  have hfd : 2 ≤ fd.toInt := (get_eq_some hs.slot).1
  have hsees := k.requested_sees .seek SC_Seek (-1) fd 0
  have hcall : SystemCallSeek (k.requested .seek SC_Seek (-1) fd 0) =
      .ok ((k.requested .seek SC_Seek (-1) fd 0).answer
        (k.fileSystem.host.contents i).length fs) := by
    refine bind_ok.mpr ⟨_,ReadRegister_of_lt _ (by decide),?_⟩
    refine bind_ok.mpr ⟨_,ReadRegister_of_lt _ (by decide),?_⟩
    rw [requested_arg₁,requested_arg₂,if_neg (by omega)]
    exact bind_ok.mpr ⟨_,hseek,WriteRegister_of_lt _ _ (by decide)⟩
  refine ⟨_,(request_ok (f := .seek) rfl).mpr ⟨_,hcall,rfl⟩,rfl,rfl,?_,hpos,honly,hcontents⟩
  rw [advance_result,answer_result]

/-! The loop, with the writer at the end of its file. -/

section Loop

variable {k : Kernel} {buffer fd1 fd2 : BitVec 32} {n₁ n₂ src dst p : ℕ}

/-- The file that is read has no NUL either after a round. -/
theorem not_mem_appended {contents : ℕ → List Byte} (hNUL : 0#8 ∉ contents src) {bs : List Byte}
    (hbs : 0#8 ∉ bs) :
    0#8 ∉ Function.update contents dst (contents dst ++ bs) src := by
  by_cases hsame : src = dst
  · rw [hsame,Function.update_self,List.mem_append,← hsame]
    exact fun hz => hz.elim hNUL hbs
  · rwa [Function.update_of_ne hsame]

/-- One round puts what it reads behind the file that it writes. -/
theorem copyLoop_appends_part (hbuffer : HasBuffer k buffer)
    (h : Transferring k.fileSystem fd1.toInt fd2.toInt n₁ n₂ src dst p
      (k.fileSystem.host.contents dst).length)
    (hNUL : 0#8 ∉ k.fileSystem.host.contents src)
    (hmore : p < (k.fileSystem.host.contents src).length) {bs : List Byte}
    (hbs : bs = ((k.fileSystem.host.contents src).drop p).take 256)
    (hroom : (k.fileSystem.host.contents dst).length + bs.length ≤ Host.limit) :
    ∃ k', (∀ n, copyLoop buffer fd1 fd2 k (n + 1) = copyLoop buffer fd1 fd2 k' n) ∧
      HasBuffer k' buffer ∧
      Transferring k'.fileSystem fd1.toInt fd2.toInt n₁ n₂ src dst (p + bs.length)
        (k'.fileSystem.host.contents dst).length ∧
      k'.fileSystem.host.contents = Function.update k.fileSystem.host.contents dst
        (k.fileSystem.host.contents dst ++ bs) ∧
      0#8 ∉ k'.fileSystem.host.contents src ∧
      k'.fileSystem.host.names = k.fileSystem.host.names := by
  have hfree := not_mem_part hNUL hbs
  obtain ⟨k',hround,hbuffer',ht,hcontents,hnames⟩ :=
    copyLoop_round hbuffer h hbs hfree hmore hroom
  rw [Host.overwrite_end] at hcontents
  have hend : (k'.fileSystem.host.contents dst).length =
      (k.fileSystem.host.contents dst).length + bs.length := by
    rw [hcontents,Function.update_self,List.length_append]
  rw [← hend] at ht
  refine ⟨k',hround,hbuffer',ht,hcontents,?_,hnames⟩
  rw [hcontents]
  exact not_mem_appended hNUL hfree

/-- From another file all bytes are appended, and the loop ends. -/
theorem copyLoop_appends (hbuffer : HasBuffer k buffer)
    (h : Transferring k.fileSystem fd1.toInt fd2.toInt n₁ n₂ src dst p
      (k.fileSystem.host.contents dst).length)
    (hNUL : 0#8 ∉ k.fileSystem.host.contents src)
    (hother : src = dst → p = (k.fileSystem.host.contents src).length)
    (hroom : (k.fileSystem.host.contents dst).length +
      ((k.fileSystem.host.contents src).length - p) ≤ Host.limit) :
    ∃ k', (∀ n, (k.fileSystem.host.contents src).length - p < n →
        copyLoop buffer fd1 fd2 k n = .ok k') ∧
      Transferring k'.fileSystem fd1.toInt fd2.toInt n₁ n₂ src dst
        (k.fileSystem.host.contents src).length (k'.fileSystem.host.contents dst).length ∧
      k'.fileSystem.host.contents dst = k.fileSystem.host.contents dst ++
        (k.fileSystem.host.contents src).drop p ∧
      k'.fileSystem.host.names = k.fileSystem.host.names := by
  induction hd : (k.fileSystem.host.contents src).length - p using Nat.strong_induction_on
    generalizing k p with
  | _ d ih =>
    have hinside := h.inside
    obtain ⟨bs,hbs⟩ : ∃ bs, bs = ((k.fileSystem.host.contents src).drop p).take 256 := ⟨_,rfl⟩
    have hlen := length_part hbs
    by_cases hend : p = (k.fileSystem.host.contents src).length
    · obtain ⟨k',hloop,ht,hcontents,hnames⟩ :=
        copyLoop_end hbuffer h hbs (not_mem_part hNUL hbs) hend
      refine ⟨k',fun n hn => ?_,?_,?_,hnames⟩
      · obtain ⟨m,rfl⟩ : ∃ m, n = m + 1 := ⟨n - 1,by omega⟩
        exact hloop m
      · rw [hcontents,← hend]
        exact ht
      · rw [hcontents,hend,List.drop_length,List.append_nil]
    · have hne : src ≠ dst := fun hsame => hend (hother hsame)
      obtain ⟨k₁,hround,hbuffer₁,h₁,hcontents₁,hNUL₁,hnames₁⟩ :=
        copyLoop_appends_part hbuffer h hNUL (by omega) hbs (by omega)
      have hsrc : k₁.fileSystem.host.contents src = k.fileSystem.host.contents src := by
        rw [hcontents₁,Function.update_of_ne hne]
      have hdst : k₁.fileSystem.host.contents dst = k.fileSystem.host.contents dst ++ bs := by
        rw [hcontents₁,Function.update_self]
      obtain ⟨k',hloop,ht,hcontents,hnames⟩ :=
        ih ((k₁.fileSystem.host.contents src).length - (p + bs.length)) (by rw [hsrc]; omega)
          hbuffer₁ h₁ hNUL₁ (fun hsame => absurd hsame hne)
          (by rw [hsrc,hdst,List.length_append]; omega) rfl
      rw [hsrc] at hloop ht hcontents
      refine ⟨k',fun n hn => ?_,ht,?_,hnames.trans hnames₁⟩
      · obtain ⟨m,rfl⟩ : ∃ m, n = m + 1 := ⟨n - 1,by omega⟩
        rw [hround m]
        exact hloop m (by omega)
      · have hparts : bs ++ (k.fileSystem.host.contents src).drop (p + bs.length) =
            (k.fileSystem.host.contents src).drop p := by
          have hsplit := List.take_append_drop bs.length ((k.fileSystem.host.contents src).drop p)
          rwa [← part_eq_take hbs,List.drop_drop] at hsplit
        rw [hcontents,hdst,List.append_assoc,hparts]

/-- The loop ends only if the reader is at the end of the file that it would extend, and all
bytes fit below the limit of the host. -/
theorem copyLoop_ok_only {k' : Kernel} {n : ℕ} (hbuffer : HasBuffer k buffer)
    (h : Transferring k.fileSystem fd1.toInt fd2.toInt n₁ n₂ src dst p
      (k.fileSystem.host.contents dst).length)
    (hNUL : 0#8 ∉ k.fileSystem.host.contents src)
    (hlimit : (k.fileSystem.host.contents dst).length ≤ Host.limit)
    (hrun : copyLoop buffer fd1 fd2 k n = .ok k') :
    (src = dst → p = (k.fileSystem.host.contents src).length) ∧
      (k.fileSystem.host.contents dst).length +
        ((k.fileSystem.host.contents src).length - p) ≤ Host.limit := by
  induction n generalizing k p with
  | zero => cases hrun
  | succ n ih =>
    have hinside := h.inside
    obtain ⟨bs,hbs⟩ : ∃ bs, bs = ((k.fileSystem.host.contents src).drop p).take 256 := ⟨_,rfl⟩
    have hlen := length_part hbs
    by_cases hend : p = (k.fileSystem.host.contents src).length
    · exact ⟨fun _ => hend,by omega⟩
    · by_cases hroom : (k.fileSystem.host.contents dst).length + bs.length ≤ Host.limit
      · obtain ⟨k₁,hround,hbuffer₁,h₁,hcontents₁,hNUL₁,_⟩ :=
          copyLoop_appends_part hbuffer h hNUL (by omega) hbs hroom
        have hdst : (k₁.fileSystem.host.contents dst).length =
            (k.fileSystem.host.contents dst).length + bs.length := by
          rw [hcontents₁,Function.update_self,List.length_append]
        rw [hround n] at hrun
        obtain ⟨hsame,hfits⟩ := ih hbuffer₁ h₁ hNUL₁ (by omega) hrun
        by_cases hsrc : src = dst
        · -- the file has grown by what was read
          have hgrown := hsame hsrc
          rw [hsrc,hdst,← hsrc] at hgrown
          omega
        · rw [hdst,hcontents₁,Function.update_of_ne hsrc] at hfits
          exact ⟨fun he => absurd he hsrc,by omega⟩
      · exact absurd hrun (copyLoop_full hbuffer h hbs (not_mem_part hNUL hbs) (by omega)
          (by omega) n k')

end Loop

/-! The two files. -/

section Files

variable {h h' : Host} {name₁ name₂ : Path} {n₁ dst src : ℕ} (hhost : HostOk h)
  (ho : h.Opened name₁ .readWrite true false n₁ dst h')

include ho in
theorem contents_opened : h'.contents dst = h.fileAt name₁ := by
  unfold Host.fileAt
  rcases ho.forWriting.2 with ⟨hname,hcontents⟩ | ⟨hname,_,hcontents⟩
  · rw [hname,hcontents]
    rfl
  · rw [hname,hcontents]
    rfl

include hhost ho

/-- The second name leads to a file that was there, or to the first one. -/
theorem second_file (hname : h'.names name₂ = some src) :
    src = dst ∧ name₂ = name₁ ∨
      h.names name₂ = some src ∧ h'.contents src = h.contents src ∧
        h'.directory src = h.directory src ∧ (src = dst → h.names name₁ = some dst) := by
  by_cases he : name₂ = name₁
  · rw [he,ho.names,Function.update_self] at hname
    exact Or.inl ⟨(Option.some.inj hname).symm,he⟩
  · rw [ho.names,Function.update_of_ne he] at hname
    have hused := hhost.names _ _ hname
    obtain ⟨hcontents,hdirectory⟩ := ho.kept hused
    refine Or.inr ⟨hname,hcontents,hdirectory,?_⟩
    rintro rfl
    rcases ho.forWriting.2 with ⟨hfirst,_⟩ | ⟨_,hunused,_⟩
    · exact hfirst
    · rw [hused] at hunused
      cases hunused

theorem contents_second (hname : h'.names name₂ = some src) :
    h'.contents src = h.fileAt name₂ := by
  rcases second_file hhost ho hname with ⟨rfl,rfl⟩ | ⟨hsecond,hcontents,_⟩
  · exact contents_opened ho
  · rw [hcontents,Host.fileAt,hsecond]
    rfl

theorem regular_second (hname : h'.names name₂ = some src)
    (hdir : ∀ i, h.names name₂ = some i → h.directory i = false) :
    h'.directory src = false := by
  rcases second_file hhost ho hname with ⟨rfl,_⟩ | ⟨hsecond,_,hdirectory,_⟩
  · exact ho.forWriting.1
  · rw [hdirectory]
    exact hdir src hsecond

/-- Both names lead to one file. -/
theorem same_file_iff (hname : h'.names name₂ = some src) :
    (∀ i, h.names name₁ = some i → h.names name₂ = some i → h.contents i = []) ↔
      (src = dst → h.fileAt name₂ = []) := by
  rcases second_file hhost ho hname with ⟨rfl,rfl⟩ | ⟨hsecond,_,_,hfirst⟩
  · unfold Host.fileAt
    rcases ho.forWriting.2 with ⟨hname₁,_⟩ | ⟨hname₁,_⟩
    · simp [hname₁]
    · simp [hname₁]
  · unfold Host.fileAt
    rw [hsecond]
    constructor
    · rintro hempty rfl
      exact hempty src (hfirst rfl) rfl
    · intro hempty i hi₁ hi₂
      obtain rfl : src = i := Option.some.inj hi₂
      have hkept := ho.names_kept hi₁
      rw [ho.names,Function.update_self] at hkept
      exact hempty (Option.some.inj hkept).symm

end Files

/-- Both files are open: the program will read the second one from its start and write at the
end of the first one. -/
structure Started (k k₂ : Kernel) (buffer fd1 fd2 : BitVec 32) (name₁ name₂ : Path)
    (n₁ n₂ src dst : ℕ) : Prop where
  buffer : HasBuffer k₂ buffer
  files : Transferring k₂.fileSystem fd2.toInt fd1.toInt n₂ n₁ src dst 0
    (k₂.fileSystem.host.contents dst).length
  first : k₂.fileSystem.host.contents dst = k.fileSystem.host.fileAt name₁
  second : k₂.fileSystem.host.contents src = k.fileSystem.host.fileAt name₂
  name : k₂.fileSystem.host.names name₁ = some dst
  limit : (k₂.fileSystem.host.contents dst).length ≤ Host.limit
  same : (∀ i, k.fileSystem.host.names name₁ = some i → k.fileSystem.host.names name₂ = some i →
    k.fileSystem.host.contents i = []) ↔ (src = dst → k.fileSystem.host.fileAt name₂ = [])

theorem concatenate_started {k k₁ kₛ k₂ : Kernel} {filePath1 filePath2 buffer : BitVec 32}
    {name₁ name₂ : Path} (hbuffer : HasBuffer k buffer)
    (hname₁ : HoldsString k.machine.user filePath1 name₁) (hlen₁ : name₁.length < 256)
    (hname₂ : HoldsString k.machine.user filePath2 name₂) (hlen₂ : name₂.length < 256)
    (hhost : HostOk k.fileSystem.host)
    (hdir : ∀ i, k.fileSystem.host.names name₂ = some i → k.fileSystem.host.directory i = false)
    (hopen₁ : k.request SC_Open filePath1 1 0 = .ok k₁) (hfd₁ : k₁.machine.registers 2 ≠ -1)
    (hseek : k₁.request SC_Seek (-1) (k₁.machine.registers 2) 0 = .ok kₛ)
    (hopen₂ : kₛ.request SC_Open filePath2 0 0 = .ok k₂) (hfd₂ : k₂.machine.registers 2 ≠ -1) :
    kₛ.machine.registers 2 ≠ -1 ∧ ∃ n₁ n₂ src dst,
      Started k k₂ buffer (k₁.machine.registers 2) (k₂.machine.registers 2) name₁ name₂ n₁ n₂
        src dst := by
  obtain ⟨huser₁,hphysical₁,n₁,dst,h₁⟩ :=
    open_openedAs (Or.inr ⟨rfl,rfl,rfl⟩) hname₁ hlen₁ hopen₁ hfd₁
  have ho₁ := h₁.host
  have hregular₁ := ho₁.forWriting.1
  have hlimit₁ := ho₁.fits hregular₁
  -- the end of the first file
  obtain ⟨_,hrunₛ,huserₛ,hphysicalₛ,hresultₛ,hposₛ,honlyₛ,hcontentsₛ⟩ :=
    seek_end_request (h₁.position hregular₁) hlimit₁
  obtain rfl := Except.ok.inj (hseek.symm.trans hrunₛ)
  rw [← huser₁,← huserₛ] at hname₂
  obtain ⟨_,hphysical₂,n₂,src,h₂⟩ :=
    open_openedAs (Or.inl ⟨rfl,rfl,rfl⟩) hname₂ hlen₂ hopen₂ hfd₂
  obtain ⟨hfound,hnames₂,hcontents₂,hdir₂,_⟩ := h₂.host.existing
  rw [honlyₛ.names] at hfound hnames₂
  have hregular₂ : k₂.fileSystem.host.directory src = false := by
    rw [hdir₂,honlyₛ.directory]
    exact regular_second hhost ho₁ hfound hdir
  obtain ⟨hslots,hfds,hwriting⟩ := h₂.others hposₛ (congrFun hdir₂ dst)
  have hlimit₂ := h₂.host.fits hregular₂
  rw [hcontentsₛ] at hcontents₂
  refine ⟨fun hpos => ?_,n₁,n₂,src,dst,?_⟩
  · have hint := congrArg BitVec.toInt (hresultₛ.symm.trans hpos)
    simp only [Host.limit] at hlimit₁
    rw [toInt_ofInt_natCast (by omega)] at hint
    have hminus : (-1 : BitVec 32).toInt = -1 := by decide
    omega
  · refine ⟨hbuffer.congr (hphysical₂.trans (hphysicalₛ.trans hphysical₁)),?_,?_,?_,?_,?_,
      same_file_iff hhost ho₁ hfound⟩
    · rw [hcontents₂]
      exact ⟨h₂.position hregular₂,hwriting,hslots.symm,hfds.symm,Nat.zero_le _,hlimit₂⟩
    · rw [hcontents₂]
      exact contents_opened ho₁
    · rw [hcontents₂]
      exact contents_second hhost ho₁ hfound
    · rw [hnames₂,ho₁.names,Function.update_self]
    · rw [hcontents₂]
      exact hlimit₁

section Program

variable {k k₂ : Kernel} {buffer fd1 fd2 : BitVec 32} {name₁ name₂ : Path} {n₁ n₂ src dst : ℕ}
  (h : Started k k₂ buffer fd1 fd2 name₁ name₂ n₁ n₂ src dst)
  (hNUL : 0#8 ∉ k.fileSystem.host.fileAt name₂)

include h hNUL

theorem Started.ok_only {n : ℕ} {k₃ : Kernel} (hloop : copyLoop buffer fd2 fd1 k₂ n = .ok k₃) :
    (∀ i, k.fileSystem.host.names name₁ = some i → k.fileSystem.host.names name₂ = some i →
      k.fileSystem.host.contents i = []) ∧
    (k.fileSystem.host.fileAt name₁).length + (k.fileSystem.host.fileAt name₂).length ≤
      Host.limit := by
  rw [← h.second] at hNUL
  obtain ⟨hsame,hfits⟩ := copyLoop_ok_only h.buffer h.files hNUL h.limit hloop
  rw [h.same,← h.first,← h.second]
  exact ⟨fun he => List.length_eq_zero_iff.mp (hsame he).symm,by simpa using hfits⟩

theorem Started.appends
    (hempty : ∀ i, k.fileSystem.host.names name₁ = some i →
      k.fileSystem.host.names name₂ = some i → k.fileSystem.host.contents i = [])
    (hroom : (k.fileSystem.host.fileAt name₁).length + (k.fileSystem.host.fileAt name₂).length ≤
      Host.limit) :
    ∃ k', (∀ n, (k.fileSystem.host.fileAt name₂).length < n →
        (copyLoop buffer fd2 fd1 k₂ n >>= fun k₃ => k₃.request SC_Close fd1 0 0 >>= fun k₄ =>
          k₄.request SC_Close fd2 0 0) = .ok k') ∧
      k'.fileSystem.host.names name₁ = some dst ∧
      k'.fileSystem.host.contents dst =
        k.fileSystem.host.fileAt name₁ ++ k.fileSystem.host.fileAt name₂ := by
  have hsame := h.same.mp hempty
  rw [← h.second] at hNUL hsame
  rw [← h.first,← h.second] at hroom ⊢
  obtain ⟨k₃,hloop,ht,hcontents,hnames⟩ := copyLoop_appends h.buffer h.files hNUL
    (fun he => by rw [hsame he]; rfl) (by simpa using hroom)
  obtain ⟨k₄,hclose₁,honly₁,hcontents₄⟩ := close_request ht.writing
  obtain ⟨k₅,hclose₂,honly₂,hcontents₅⟩ :=
    close_request (honly₁.positioned ht.slots ht.descriptors ht.reading)
  refine ⟨k₅,fun n hn => ?_,?_,?_⟩
  · rw [bind_of_ok (hloop n (by omega)),bind_of_ok hclose₁,hclose₂]
  · rw [honly₂.names,honly₁.names,hnames,h.name]
  · rw [hcontents₅,hcontents₄,hcontents,List.drop_zero]

end Program

theorem concatenateMain_eq {k k₁ kₛ k₂ : Kernel} {filePath1 filePath2 : BitVec 32}
    (buffer message : BitVec 32) (hopen₁ : k.request SC_Open filePath1 1 0 = .ok k₁)
    (hfd₁ : k₁.machine.registers 2 ≠ -1)
    (hseek : k₁.request SC_Seek (-1) (k₁.machine.registers 2) 0 = .ok kₛ)
    (hpos : kₛ.machine.registers 2 ≠ -1) (hopen₂ : kₛ.request SC_Open filePath2 0 0 = .ok k₂)
    (hfd₂ : k₂.machine.registers 2 ≠ -1) (n : ℕ) :
    concatenateMain filePath1 filePath2 buffer message k n =
      copyLoop buffer (k₂.machine.registers 2) (k₁.machine.registers 2) k₂ n >>= fun k₃ =>
        k₃.request SC_Close (k₁.machine.registers 2) 0 0 >>= fun k₄ =>
          k₄.request SC_Close (k₂.machine.registers 2) 0 0 := by
  unfold concatenateMain
  rw [bind_of_ok hopen₁,bind_of_ok hseek,bind_of_ok hopen₂,if_pos ⟨hfd₁,hfd₂,hpos⟩]

/-- The program ends with the second file appended to the first one just if the two names do not
lead to one file with contents, and both contents together fit below the limit of the host. -/
theorem concatenate_iff {k k₁ kₛ k₂ : Kernel} {filePath1 filePath2 buffer : BitVec 32}
    {name₁ name₂ : Path} (message : BitVec 32) (hapart : k.machine.translation.Apart)
    (hwritable : ∀ j < 256, k.machine.translation.Writable (buffer + BitVec.ofNat 32 j))
    (hname₁ : HoldsString k.machine.user filePath1 name₁) (hlen₁ : name₁.length < 256)
    (hname₂ : HoldsString k.machine.user filePath2 name₂) (hlen₂ : name₂.length < 256)
    (hhost : HostOk k.fileSystem.host)
    (hdir : ∀ i, k.fileSystem.host.names name₂ = some i → k.fileSystem.host.directory i = false)
    (hNUL : 0#8 ∉ k.fileSystem.host.fileAt name₂)
    (hopen₁ : k.request SC_Open filePath1 1 0 = .ok k₁) (hfd₁ : k₁.machine.registers 2 ≠ -1)
    (hseek : k₁.request SC_Seek (-1) (k₁.machine.registers 2) 0 = .ok kₛ)
    (hopen₂ : kₛ.request SC_Open filePath2 0 0 = .ok k₂) (hfd₂ : k₂.machine.registers 2 ≠ -1) :
    (∃ k', (∀ n, (k.fileSystem.host.fileAt name₂).length < n →
        concatenateMain filePath1 filePath2 buffer message k n = .ok k') ∧
      ∃ dst, k'.fileSystem.host.names name₁ = some dst ∧
        k'.fileSystem.host.contents dst =
          k.fileSystem.host.fileAt name₁ ++ k.fileSystem.host.fileAt name₂) ↔
      (∀ i, k.fileSystem.host.names name₁ = some i → k.fileSystem.host.names name₂ = some i →
        k.fileSystem.host.contents i = []) ∧
      (k.fileSystem.host.fileAt name₁).length + (k.fileSystem.host.fileAt name₂).length ≤
        Host.limit := by
  obtain ⟨hpos,n₁,n₂,src,dst,h⟩ := concatenate_started ⟨hapart,hwritable⟩ hname₁ hlen₁ hname₂ hlen₂
    hhost hdir hopen₁ hfd₁ hseek hopen₂ hfd₂
  have hmain := concatenateMain_eq buffer message hopen₁ hfd₁ hseek hpos hopen₂ hfd₂
  constructor
  · rintro ⟨k',hrun,_⟩
    have hended := hrun _ (Nat.lt_succ_self _)
    rw [hmain] at hended
    obtain ⟨k₃,hloop,_⟩ := bind_ok.mp hended
    exact h.ok_only hNUL hloop
  · rintro ⟨hempty,hroom⟩
    obtain ⟨k',hrun,hname,hcontents⟩ := h.appends hNUL hempty hroom
    exact ⟨k',fun n hn => (hmain n).trans (hrun n hn),dst,hname,hcontents⟩

/-- "a" holds one byte, and gets the one of "b". -/
theorem concatenate_iff_two : ∃ k',
    (∀ n, 1 < n → concatenateMain 0 2 256 8 (copyKernel [121#8]) n = .ok k') ∧
    ∃ dst, k'.fileSystem.host.names [97#8] = some dst ∧
      k'.fileSystem.host.contents dst = [120#8,121#8] := by
  obtain ⟨hname₁,hname₂⟩ := copyKernel_names [121#8]
  obtain ⟨hhost,hbuffer⟩ := copyKernel_ok [121#8]
  have hopens : ∃ k₁ kₛ k₂, (copyKernel [121#8]).request SC_Open 0 1 0 = .ok k₁ ∧
      k₁.machine.registers 2 ≠ -1 ∧
      k₁.request SC_Seek (-1) (k₁.machine.registers 2) 0 = .ok kₛ ∧
      kₛ.request SC_Open 2 0 0 = .ok k₂ ∧ k₂.machine.registers 2 ≠ -1 :=
    ⟨_,_,_,rfl,by decide,rfl,rfl,by decide⟩
  obtain ⟨k₁,kₛ,k₂,hopen₁,hfd₁,hseek,hopen₂,hfd₂⟩ := hopens
  refine (concatenate_iff 8 hbuffer.apart hbuffer.writable hname₁ (by decide) hname₂ (by decide)
    hhost (fun _ _ => rfl) (by decide) hopen₁ hfd₁ hseek hopen₂ hfd₂).mpr ⟨?_,by decide⟩
  intro i hi₁ hi₂
  cases hi₁
  cases hi₂

/-- Where both names are "a", the program reads what it has written, and does not end. -/
theorem concatenate_same_file :
    (copyKernel []).fileSystem.host.fileAt [97#8] = [120#8] ∧
    (∃ k₁ kₛ k₂, (copyKernel []).request SC_Open 0 1 0 = .ok k₁ ∧
      k₁.machine.registers 2 ≠ -1 ∧
      k₁.request SC_Seek (-1) (k₁.machine.registers 2) 0 = .ok kₛ ∧
      kₛ.request SC_Open 0 0 0 = .ok k₂ ∧ k₂.machine.registers 2 ≠ -1) ∧
    ∀ n k', concatenateMain 0 0 256 8 (copyKernel []) n ≠ .ok k' := by
  obtain ⟨hname,-⟩ := copyKernel_names []
  obtain ⟨hhost,hbuffer⟩ := copyKernel_ok []
  have hopens : ∃ k₁ kₛ k₂, (copyKernel []).request SC_Open 0 1 0 = .ok k₁ ∧
      k₁.machine.registers 2 ≠ -1 ∧
      k₁.request SC_Seek (-1) (k₁.machine.registers 2) 0 = .ok kₛ ∧
      kₛ.request SC_Open 0 0 0 = .ok k₂ ∧ k₂.machine.registers 2 ≠ -1 :=
    ⟨_,_,_,rfl,by decide,rfl,rfl,by decide⟩
  refine ⟨rfl,hopens,fun n k' hrun => ?_⟩
  obtain ⟨k₁,kₛ,k₂,hopen₁,hfd₁,hseek,hopen₂,hfd₂⟩ := hopens
  obtain ⟨hpos,n₁,n₂,src,dst,h⟩ := concatenate_started hbuffer hname (by decide) hname (by decide)
    hhost (fun _ _ => rfl) hopen₁ hfd₁ hseek hopen₂ hfd₂
  rw [concatenateMain_eq 256 8 hopen₁ hfd₁ hseek hpos hopen₂ hfd₂] at hrun
  obtain ⟨k₃,hloop,_⟩ := bind_ok.mp hrun
  cases (h.ok_only (by decide) hloop).1 1 rfl rfl

end Kernel
end NachOS
