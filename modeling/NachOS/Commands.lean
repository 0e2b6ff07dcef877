import NachOS.Volume
import NachOS.Syscall

/-! The commands `-cp` and `-p` (threads/main.cc): a file of the host is copied to the disk
file system, and a file of the disk is printed.  Both go through it in pieces of
`TransferSize` bytes. -/
namespace NachOS
namespace FileSystem

open StateMachine Memory FileHeader OpenFile FileArray Stub

abbrev TransferSize : ℕ := 128

/-- The loop of `Copy`, at most `n` rounds of it. -/
def copyLoop (fd : ℤ) (junk : ℕ → Buffer) (h : Host) (d : Disk) (f : NachOS.OpenFile)
    (buffer : Buffer) : ℕ → Except Fault (Host × Disk × NachOS.OpenFile)
  | 0 => .error .blocked
  | n + 1 => do
    let (amountRead,bs,h) := ReadPartial h fd TransferSize
    let buffer := put bs buffer
    if 0 < amountRead then
      let (_,d,f) ← f.Write d buffer amountRead (junk 0) (junk 1) (junk 2)
      copyLoop fd (fun j => junk (j + 3)) h d f buffer n
    else
      return (h,d,f)

/-- `Copy` once the file of the host is open as `fd` and its length is known. -/
def copyTo (fs : FileSystem) (h : Host) (d : Disk) (fd fileLength : ℤ) (target : Path)
    (junk : ℕ → ℕ → Buffer) (n : ℕ) : Except Fault (List Byte × Host × Disk) := do
  let (success,d) ← fs.Create d (ofList target) fileLength (junk 0)
  if success = false then
    let h ← Stub.Close h fd
    return (Kernel.bytes "Copy: couldn't create output file " ++ target ++ Kernel.bytes "\n",h,d)
  else
    match ← fs.Open d (ofList target) (junk 1) with
    | none => .error .assertion
    | some openFile =>
      let (h,d,_) ← copyLoop fd (junk 3) h d openFile (junk 2 0) n
      let h ← Stub.Close h fd
      return ([],h,d)

/-- `Copy(from, to)`: what it prints, the files of the host and the disk afterwards. -/
def Copy (fs : FileSystem) (h : Host) (d : Disk) (source target : Path)
    (junk : ℕ → ℕ → Buffer) (n : ℕ) : Except Fault (List Byte × Host × Disk) := do
  let (fd,h) ← OpenForReadWrite h source false
  if fd < 0 then
    return (Kernel.bytes "Copy: couldn't open input file " ++ source ++ Kernel.bytes "\n",h,d)
  else
    let h ← Lseek h fd 0 .fromEnd
    let (fileLength,h) := Tell h fd
    let h ← Lseek h fd 0 .set
    copyTo fs h d fd fileLength target junk n

/-- The loop of `Print`, at most `n` rounds of it. -/
def printLoop (d : Disk) (junk : ℕ → Buffer) (f : NachOS.OpenFile) (buffer : Buffer) :
    ℕ → Except Fault (List Byte)
  | 0 => .error .blocked
  | n + 1 => do
    let (amountRead,buffer,f) ← f.Read d buffer 0 TransferSize (junk 0)
    if 0 < amountRead then
      let rest ← printLoop d (fun j => junk (j + 1)) f buffer n
      return bytes buffer amountRead.toNat ++ rest
    else
      return []

/-- `Print(name)`: what it prints. -/
def Print (fs : FileSystem) (d : Disk) (name : Path) (junk : ℕ → ℕ → Buffer) (n : ℕ) :
    Except Fault (List Byte) := do
  match ← fs.Open d (ofList name) (junk 0) with
  | none =>
    return Kernel.bytes "Print: unable to open file " ++ name ++ Kernel.bytes "\n"
  | some openFile => printLoop d (junk 2) openFile (junk 1 0) n

/-! The host's side. -/

/-- The host with descriptor `fd` at `p` of file `i`. -/
def reading (h : Host) (fd i p : ℕ) : Host :=
  { h with fds := Function.update h.fds fd (some ⟨i,.readWrite,p⟩) }

variable {h : Host} {fd i p : ℕ}

theorem description_reading : (reading h fd i p).description fd = some ⟨i,.readWrite,p⟩ := by
  simp [Host.description_natCast,reading]

theorem setOffset_reading (q : ℕ) :
    (reading h fd i p).setOffset fd ⟨i,.readWrite,p⟩ q = reading h fd i q := by
  simp [Host.setOffset,reading]

theorem Lseek_end (hlen : (h.contents i).length ≤ Host.limit) :
    Lseek (reading h fd i p) fd 0 .fromEnd = .ok (reading h fd i (h.contents i).length) := by
  have hrange : ¬ (((h.contents i).length : ℤ) < 0 ∨ ((h.contents i).length : ℤ) > Host.limit) := by
    omega
  have hseek : (reading h fd i p).lseek fd 0 .fromEnd =
      (((h.contents i).length : ℤ),reading h fd i (h.contents i).length) := by
    simp only [Host.lseek,description_reading,add_zero]
    rw [show (reading h fd i p).contents = h.contents from rfl,if_neg hrange,Int.toNat_natCast,
      setOffset_reading]
  rw [Lseek,hseek]
  exact check_bind_ok.mpr ⟨Int.natCast_nonneg _,rfl⟩

theorem Tell_reading (hp : p ≤ Host.limit) :
    Tell (reading h fd i p) fd = ((p : ℤ),reading h fd i p) := by
  have hrange : ¬ ((p : ℤ) < 0 ∨ (p : ℤ) > Host.limit) := by omega
  simp only [Tell,Host.lseek,description_reading,add_zero,if_neg hrange,Int.toNat_natCast,
    setOffset_reading]

theorem Lseek_start : Lseek (reading h fd i p) fd 0 .set = .ok (reading h fd i 0) := by
  have hrange : ¬ ((0 : ℤ) < 0 ∨ (0 : ℤ) > Host.limit) := by decide
  have hseek : (reading h fd i p).lseek fd 0 .set = (0,reading h fd i 0) := by
    simp only [Host.lseek,description_reading,if_neg hrange,Int.toNat_zero,setOffset_reading]
  rw [Lseek,hseek]
  rfl

/-- The bytes of the file from `p` on, as many as fit in the buffer. -/
theorem ReadPartial_reading (hdir : h.directory i = false) {bs : List Byte}
    (hbs : bs = ((h.contents i).drop p).take TransferSize) :
    ReadPartial (reading h fd i p) fd TransferSize =
      ((bs.length : ℤ),bs,reading h fd i (p + bs.length)) := by
  subst hbs
  have hok : ¬ ((TransferSize : ℤ) < 0 ∨ Access.readWrite = .writeOnly ∨
      (reading h fd i p).directory i = true) := by
    simp [reading,hdir]
  rw [ReadPartial,Host.read,description_reading]
  simp only [if_neg hok,setOffset_reading]
  rfl

theorem close_reading (hfree : h.fds fd = none) :
    Stub.Close (reading h fd i p) fd = .ok h := by
  have hback : Function.update h.fds fd none = h.fds := Function.update_eq_self_iff.mpr hfree.symm
  have hclose : (reading h fd i p).close fd = (0,h) := by
    rw [Host.close,description_reading]
    simp [reading,hback]
  rw [Stub.Close,hclose]
  rfl

/-- The host opens the file for reading. -/
structure Offers (h : Host) (source : Path) (fd i : ℕ) (c : List Byte) : Prop where
  choice : ∃ inode, h.choices 0 = some ⟨fd,inode⟩
  free : h.fds fd = none
  name : h.names source = some i
  regular : h.directory i = false
  contents : h.contents i = c

theorem Offers.opens {source : Path} {c : List Byte} (ho : Offers h source fd i c)
    (hlen : c.length ≤ Host.limit) :
    OpenForReadWrite h source false = .ok ((fd : ℤ),reading h.next fd i 0) := by
  obtain ⟨inode,hchoice⟩ := ho.choice
  have hfits : h.refuses i .readWrite = false := by
    simp [Host.refuses,ho.regular,ho.contents,hlen]
  have hopen : h.openFd source .readWrite false false = ((fd : ℤ),reading h.next fd i 0) := by
    simp [Host.openFd,hchoice,ho.free,ho.name,hfits,reading,Host.next]
  rw [OpenForReadWrite,hopen]
  rfl

/-! The copy. -/

/-- A piece of an array is written where the pieces before it end. -/
theorem writeAt_next {c old bs : List Byte} {p : ℕ} (hlen : old.length = c.length)
    (hbs : bs = (c.drop p).take TransferSize) (hp : p ≤ c.length) :
    FileArray.writeAt (c.take p ++ old.drop p) bs p =
      c.take (p + bs.length) ++ old.drop (p + bs.length) := by
  have htake : (c.take p).length = p := by
    rw [List.length_take]
    omega
  have hpiece : bs.length = min TransferSize (c.length - p) := by
    rw [hbs,List.length_take,List.length_drop]
  have hfits : bs.length ≤ (c.take p ++ old.drop p).length - p := by
    rw [List.length_append,htake,List.length_drop]
    omega
  have hmore : c.take (p + bs.length) = c.take p ++ bs := by
    rw [List.take_add,hbs]
    congr 1
    rw [List.take_eq_take_iff,List.length_take]
    omega
  rw [FileArray.writeAt,List.take_of_length_le hfits,hmore]
  congr 1
  · rw [List.take_left' htake]
  · rw [List.drop_append,htake,List.drop_of_length_le (by omega),List.nil_append,List.drop_drop]
    congr 1
    omega

/-- The file system while `Copy` writes file `k` from the array `c`: `p` bytes are there. -/
structure Copying (fs : FileSystem) (d : Disk) (e : ℕ) (sector : ℤ) (names : Finset (List Byte))
    (contents : List Byte → List Byte) (k c old : List Byte) (p : ℕ) : Prop where
  index : e < NumDirEntries
  entry : entry d e = some (sector,k)
  store : Represents ⟨d,fs,fun _ => none⟩
    ⟨names,Function.update contents k (c.take p ++ old.drop p),fun _ => none⟩
  length : old.length = c.length
  bound : p ≤ c.length

theorem bytes_put (bs : List Byte) (buffer : Buffer) : bytes (put bs buffer) bs.length = bs := by
  apply List.ext_getElem
  · simp
  · intro j h₁ h₂
    simp [getElem_bytes,put,h₂]

section Loop

variable {fs : FileSystem} {d : Disk} {e : ℕ} {sector : ℤ} {names : Finset (List Byte)}
  {contents : List Byte → List Byte} {k c old bs : List Byte}

/-- One write of the loop. -/
theorem Copying.round (hc : Copying fs d e sector names contents k c old p)
    (hsmall : c.length ≤ MaxFileSize) (hbs : bs = (c.drop p).take TransferSize)
    (buffer b₀ b₁ b₂ : Buffer) : ∃ d',
      NachOS.OpenFile.Write ⟨d sector.toNat,p⟩ d (put bs buffer) bs.length b₀ b₁ b₂ =
        .ok ((bs.length : ℤ),d',⟨d' sector.toNat,((p + bs.length : ℕ) : ℤ)⟩) ∧
      Copying fs d' e sector names contents k c old (p + bs.length) := by
  have hlength : bs.length ≤ c.length - p := by
    rw [hbs,List.length_take,List.length_drop]
    omega
  have hbound := hc.bound
  have hold : old.length = c.length := hc.length
  simp only [MaxFileSize,NumDirect,SectorSize] at hsmall
  have hin : InFile ⟨d sector.toNat,p⟩ (bs.length : ℤ) p := Or.inr (Or.inr ⟨by omega,by omega⟩)
  obtain ⟨d',hwrite,hentry,hheader,hr⟩ := hc.store.written hc.index hc.entry rfl hin
    (put bs buffer) b₀ b₁ b₂
  have hbytes : bytes (put bs buffer) (bs.length : ℤ).toNat = bs := by
    rw [Int.toNat_natCast,bytes_put]
  -- all of the piece fits
  have hfits : Volume.fitting ⟨names,Function.update contents k (c.take p ++ old.drop p),
      fun _ => none⟩ k bs p = bs.length := by
    simp only [Volume.fitting,Function.update_self,List.length_take,List.length_append,
      List.length_drop]
    omega
  rw [hbytes,Int.toNat_natCast] at hwrite hr
  rw [hfits] at hwrite
  refine ⟨d',bind_ok.mpr ⟨_,hwrite,?_⟩,hc.index,hentry,?_,hold,by omega⟩
  · have hwrap : wrap ((p : ℤ) + bs.length) = ((p + bs.length : ℕ) : ℤ) := by
      rw [wrap_of_range (by omega) (by omega),Nat.cast_add]
    simp only [hwrap,hheader]
    rfl
  · simp only [Volume.write,Function.update_idem,Function.update_self] at hr
    rw [writeAt_next hold hbs hbound] at hr
    exact hr

/-- From `p` on the loop ends after at most as many rounds as there are bytes left. -/
theorem copyLoop_ok (fd : ℕ) (hdir : h.directory i = false) (hcontents : h.contents i = c)
    (hsmall : c.length ≤ MaxFileSize) (hc : Copying fs d e sector names contents k c old p)
    (junk : ℕ → Buffer) (buffer : Buffer) : ∃ d' f',
      (∀ n, c.length - p < n →
        copyLoop fd junk (reading h fd i p) d ⟨d sector.toNat,p⟩ buffer n =
          .ok (reading h fd i c.length,d',f')) ∧
      Copying fs d' e sector names contents k c old c.length := by
  induction hrest : c.length - p using Nat.strong_induction_on generalizing p d junk buffer with
  | _ rest ih =>
    have hbound := hc.bound
    obtain ⟨bs,hbs⟩ : ∃ bs, bs = (c.drop p).take TransferSize := ⟨_,rfl⟩
    have hlength : bs.length = min 128 (c.length - p) := by
      rw [hbs,List.length_take,List.length_drop]
    have hread : ReadPartial (reading h fd i p) fd TransferSize = _ :=
      ReadPartial_reading hdir (hcontents ▸ hbs)
    by_cases hend : p = c.length
    · subst hend
      refine ⟨d,⟨d sector.toNat,c.length⟩,fun n hn => ?_,hc⟩
      obtain ⟨n,rfl⟩ := Nat.exists_eq_succ_of_ne_zero (by omega : n ≠ 0)
      have hzero : bs.length = 0 := by omega
      rw [copyLoop,hread]
      simp only [hzero,Nat.add_zero]
      rfl
    · have hmore : 0 < (bs.length : ℤ) := by omega
      obtain ⟨d₁,hwrite,hc₁⟩ := hc.round hsmall hbs buffer (junk 0) (junk 1) (junk 2)
      obtain ⟨d',f',hloop,hdone⟩ := ih (c.length - (p + bs.length)) (by omega) hc₁
        (fun j => junk (j + 3)) (put bs buffer) rfl
      refine ⟨d',f',fun n hn => ?_,hdone⟩
      obtain ⟨n,rfl⟩ := Nat.exists_eq_succ_of_ne_zero (by omega : n ≠ 0)
      rw [copyLoop,hread]
      simp only [if_pos hmore]
      rw [bind_of_ok hwrite]
      exact hloop n (by omega)

/-- The loop of `Print` prints the bytes from its position on. -/
theorem printLoop_ok {hdr : Buffer} (hok : Ok hdr) (hp : p ≤ (content d hdr).length)
    (junk : ℕ → Buffer) (buffer : Buffer) {n : ℕ} (hn : (content d hdr).length - p < n) :
    printLoop d junk ⟨hdr,p⟩ buffer n = .ok ((content d hdr).drop p) := by
  induction n generalizing p junk buffer with
  | zero => omega
  | succ n ih =>
    have hlen := hok.length_le
    have hbytes := length_content d hdr
    simp only [MaxFileSize,NumDirect,SectorSize] at hlen
    obtain ⟨bs,hbs⟩ : ∃ bs, bs = FileArray.readAt (content d hdr) TransferSize p := ⟨_,rfl⟩
    have hlength : bs.length = min 128 ((content d hdr).length - p) := by
      rw [hbs,FileArray.readAt,List.length_take,List.length_drop]
    have hsplit : bs ++ (content d hdr).drop (p + bs.length) = (content d hdr).drop p := by
      have hpiece : bs = ((content d hdr).drop p).take bs.length := by
        rw [hlength,hbs,FileArray.readAt,List.take_eq_take_iff,List.length_drop]
        simp only [TransferSize]
        omega
      rw [← List.drop_drop]
      nth_rewrite 1 [hpiece]
      exact List.take_append_drop _ _
    have hin : InFile ⟨hdr,p⟩ (TransferSize : ℕ) (p : ℤ) := by
      refine Or.inr (Or.inr ⟨by omega,?_⟩)
      simp only [TransferSize]
      omega
    have hread : NachOS.OpenFile.Read ⟨hdr,p⟩ d buffer 0 (TransferSize : ℕ) (junk 0) =
        .ok ((bs.length : ℤ),put bs buffer,⟨hdr,((p + bs.length : ℕ) : ℤ)⟩) := by
      have hat := Represents.ReadAt_inFile (f := ⟨hdr,p⟩) hok hin d buffer (junk 0)
      rw [Int.toNat_natCast,Int.toNat_natCast,← hbs] at hat
      refine bind_ok.mpr ⟨_,hat,?_⟩
      simp only
      rw [wrap_of_range (by omega) (by omega),Nat.cast_add]
      rfl
    rw [printLoop,bind_of_ok hread]
    by_cases hend : p = (content d hdr).length
    · have hzero : ¬ (0 : ℤ) < (bs.length : ℤ) := by omega
      simp only [if_neg hzero]
      rw [List.drop_eq_nil_of_le hend.ge]
      rfl
    · have hmore : (0 : ℤ) < (bs.length : ℤ) := by omega
      have hrest := ih (p := p + bs.length) (by omega) (fun j => junk (j + 1)) (put bs buffer)
        (by omega)
      simp only [if_pos hmore]
      rw [bind_of_ok hrest,Int.toNat_natCast,bytes_put]
      exact congrArg Except.ok hsplit

end Loop

/-! The commands. -/

section Commands

variable {fs : FileSystem} {d : Disk} {v : Volume} {name source target : Path} {c : List Byte}

/-- `Print` prints the bytes of the file. -/
theorem Print_known (hr : Represents ⟨d,fs,fun _ => none⟩ v)
    (hk : Directory.key (ofList name) ∈ v.names) (junk : ℕ → ℕ → Buffer) {n : ℕ}
    (hn : (v.contents (Directory.key (ofList name))).length < n) :
    Print fs d name junk n = .ok (v.contents (Directory.key (ofList name))) := by
  obtain ⟨e,sector,hi,he,_,hopen⟩ := hr.Open_known hk (junk 0)
  have hok := (hr.fsck.header e sector _ hi he).2
  have hcontent : v.contents (Directory.key (ofList name)) = content d (d sector.toNat) :=
    hr.contents e sector _ hi he
  rw [hcontent] at hn ⊢
  refine bind_ok.mpr ⟨_,hopen,?_⟩
  exact printLoop_ok (p := 0) hok (Nat.zero_le _) (junk 2) (junk 1 0) hn

/-- The file of the host is opened, measured and rewound. -/
theorem Copy_eq (ho : Offers h source fd i c) (hsmall : c.length ≤ MaxFileSize)
    (junk : ℕ → ℕ → Buffer) (n : ℕ) : Copy fs h d source target junk n =
      copyTo fs (reading h.next fd i 0) d fd c.length target junk n := by
  have hlimit : c.length ≤ Host.limit := by
    simp only [MaxFileSize,NumDirect,SectorSize] at hsmall
    simp only [Host.limit]
    omega
  have hcontents : h.next.contents i = c := ho.contents
  have hfd : ¬ (fd : ℤ) < 0 := by omega
  rw [Copy,bind_of_ok (ho.opens hlimit)]
  simp only [if_neg hfd]
  rw [bind_of_ok (Lseek_end (by rw [hcontents]; exact hlimit)),hcontents,Tell_reading hlimit]
  simp only
  rw [bind_of_ok Lseek_start]

theorem Copy_stores (hr : Represents ⟨d,fs,fun _ => none⟩ v) (ho : Offers h source fd i c)
    (hsmall : c.length ≤ MaxFileSize) (hnew : Directory.key (ofList target) ∉ v.names)
    (hroom : v.HasRoom c.length) (junk : ℕ → ℕ → Buffer) :
    ∃ d', (∀ n, c.length < n → Copy fs h d source target junk n = .ok ([],h.next,d')) ∧
      Represents ⟨d',fs,fun _ => none⟩
        ⟨insert (Directory.key (ofList target)) v.names,
          Function.update v.contents (Directory.key (ofList target)) c,fun _ => none⟩ := by
  rcases hr.Create_cases (ofList target) (Int.natCast_nonneg c.length) (by omega) (junk 0) with
    ⟨_,htaken | hfull⟩ | ⟨d₁,old,hcreate,_,_,hlength,hr₁⟩
  · exact absurd htaken hnew
  · exact absurd hroom hfull
  obtain ⟨e,sector,hi,he,_,hopen⟩ := hr₁.Open_known (Finset.mem_insert_self _ _) (junk 1)
  have hfiles : v.files = fun _ => none := by
    funext g
    by_contra hg
    obtain ⟨⟨k,q⟩,hg⟩ := Option.ne_none_iff_exists'.mp hg
    obtain ⟨_,_,_,_,hnone,_⟩ := hr.files g k q hg
    cases hnone
  have hstart : Copying fs d₁ e sector (insert (Directory.key (ofList target)) v.names)
      v.contents (Directory.key (ofList target)) c old 0 := by
    refine ⟨hi,he,?_,by omega,Nat.zero_le _⟩
    simpa [hfiles] using hr₁
  obtain ⟨d',f',hloop,hdone⟩ := copyLoop_ok fd (h := h.next) ho.regular ho.contents hsmall
    hstart (junk 3) (junk 2 0)
  refine ⟨d',fun n hn => ?_,?_⟩
  · rw [Copy_eq ho hsmall]
    exact bind_ok.mpr ⟨_,hcreate,bind_ok.mpr ⟨_,hopen,bind_ok.mpr ⟨_,hloop n (by omega),
      bind_ok.mpr ⟨_,close_reading ho.free,rfl⟩⟩⟩⟩
  · have hstore := hdone.store
    rw [List.take_length,List.drop_of_length_le hdone.length.le,List.append_nil] at hstore
    exact hstore

theorem Copy_refused (hr : Represents ⟨d,fs,fun _ => none⟩ v) (ho : Offers h source fd i c)
    (hsmall : c.length ≤ MaxFileSize)
    (hwhy : Directory.key (ofList target) ∈ v.names ∨ ¬ v.HasRoom c.length)
    (junk : ℕ → ℕ → Buffer) (n : ℕ) : Copy fs h d source target junk n =
      .ok (Kernel.bytes "Copy: couldn't create output file " ++ target ++ Kernel.bytes "\n",
        h.next,d) := by
  rcases hr.Create_cases (ofList target) (Int.natCast_nonneg c.length) (by omega) (junk 0) with
    ⟨hno,_⟩ | ⟨_,_,_,hnew,hroom,_⟩
  · rw [Copy_eq ho hsmall]
    exact bind_ok.mpr ⟨_,hno,bind_ok.mpr ⟨_,close_reading ho.free,rfl⟩⟩
  · exact absurd hwhy (not_or.mpr ⟨hnew,not_not.mpr hroom⟩)

/-- A file of the host that was copied to the disk is printed as it was, now or after the disk
was mounted again, and the other files are as before.  If its name is taken or there is no room
for it, the disk is left alone. -/
theorem copy_then_print (hr : Represents ⟨d,fs,fun _ => none⟩ v) (ho : Offers h source fd i c)
    (hsmall : c.length ≤ MaxFileSize) (target : Path) (junk junk' : ℕ → ℕ → Buffer) :
    (Directory.key (ofList target) ∉ v.names ∧ v.HasRoom c.length → ∃ d',
      (∀ n, c.length < n → Copy fs h d source target junk n = .ok ([],h.next,d')) ∧
      Represents ⟨d',fs,fun _ => none⟩
        ⟨insert (Directory.key (ofList target)) v.names,
          Function.update v.contents (Directory.key (ofList target)) c,fun _ => none⟩ ∧
      (∀ n, c.length < n → Print fs d' target junk' n = .ok c) ∧
      ∃ fs', mount d' = .ok fs' ∧ ∀ n, c.length < n → Print fs' d' target junk' n = .ok c) ∧
    (Directory.key (ofList target) ∈ v.names ∨ ¬ v.HasRoom c.length →
      ∀ n, Copy fs h d source target junk n =
        .ok (Kernel.bytes "Copy: couldn't create output file " ++ target ++ Kernel.bytes "\n",
          h.next,d)) := by
  refine ⟨fun hfree => ?_,fun hwhy n => Copy_refused hr ho hsmall hwhy junk n⟩
  obtain ⟨d',hcopy,hr'⟩ := Copy_stores hr ho hsmall hfree.1 hfree.2 junk
  have hprint : ∀ fs', Represents ⟨d',fs',fun _ => none⟩
      ⟨insert (Directory.key (ofList target)) v.names,
        Function.update v.contents (Directory.key (ofList target)) c,fun _ => none⟩ →
      ∀ n, c.length < n → Print fs' d' target junk' n = .ok c := by
    intro fs' hr'' n hn
    have hprint : Print fs' d' target junk' n = _ :=
      Print_known hr'' (Finset.mem_insert_self _ _) junk' (by simpa using hn)
    simpa using hprint
  obtain ⟨fs',hmount,hr''⟩ := hr'.mounted_again
  exact ⟨d',hcopy,hr',hprint fs hr',fs',hmount,hprint fs' hr''⟩

/-- Three bytes on a freshly formatted disk, printed after it was mounted again. -/
theorem copy_then_print_formatted : ∃ fs d d' fs',
    Represents ⟨d,fs,fun _ => none⟩ Volume.empty ∧
    Copy fs (Host.oneFile 97#8 [1#8,0#8,255#8]) d [97#8] [98#8] (fun _ _ _ => 0#8) 4 =
      .ok ([],(Host.oneFile 97#8 [1#8,0#8,255#8]).next,d') ∧
    mount d' = .ok fs' ∧ Print fs' d' [98#8] (fun _ _ _ => 1#8) 4 = .ok [1#8,0#8,255#8] := by
  obtain ⟨fs,d,hformat,_⟩ := format_ok (fun _ _ => 0#8) fun _ _ => 0#8
  have hr : Represents ⟨d,fs,fun _ => none⟩ Volume.empty :=
    Represents.formatted ⟨⟨_,_,hformat⟩,rfl⟩
  have ho : Offers (Host.oneFile 97#8 [1#8,0#8,255#8]) [97#8] 3 3 [1#8,0#8,255#8] :=
    ⟨⟨4,rfl⟩,rfl,rfl,rfl,rfl⟩
  obtain ⟨d',hcopy,_,_,fs',hmount,hprint⟩ := (copy_then_print hr ho (by decide) [98#8]
    (fun _ _ _ => 0#8) fun _ _ _ => 1#8).1 ⟨Finset.notMem_empty _,by decide,by decide⟩
  exact ⟨fs,d,d',fs',hr,hcopy 4 (by decide),hmount,hprint 4 (by decide)⟩

end Commands

end FileSystem
end NachOS
