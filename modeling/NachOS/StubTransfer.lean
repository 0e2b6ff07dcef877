import NachOS.StubFileSystem

/-! What reading, writing and seeking do to one descriptor of the stub file system. -/
namespace NachOS

open StateMachine Memory

namespace Host

variable {h : Host} {fd : ℤ} {o : Description}

theorem description_setOffset (hd : h.description fd = some o) (offset : ℕ) :
    (h.setOffset fd o offset).description fd = some { o with offset := offset } := by
  unfold description at hd ⊢
  split at hd
  · cases hd
  · next hfd =>
    rw [if_neg hfd]
    exact Function.update_self _ _ _

theorem setOffset_setOffset (h : Host) (fd : ℤ) (o : Description) (p q : ℕ) :
    (h.setOffset fd o p).setOffset fd { o with offset := p } q = h.setOffset fd o q := by
  simp [setOffset]

/-- What was written is what stands in the file. -/
theorem take_drop_overwrite (file bs : List Byte) (offset : ℕ) :
    ((overwrite file bs offset).drop offset).take bs.length = bs := by
  unfold overwrite
  split
  · next hnil => simp [hnil]
  · have hlen : (file.take offset ++ List.replicate (offset - file.length) 0#8).length = offset := by
      simp only [List.length_append,List.length_take,List.length_replicate]
      omega
    rw [List.append_assoc,List.drop_append_of_le_length (by omega),List.drop_of_length_le (by omega),
      List.nil_append,List.take_left]

theorem length_overwrite (file bs : List Byte) (offset : ℕ) :
    (overwrite file bs offset).length =
      if bs = [] then file.length else max file.length (offset + bs.length) := by
  unfold overwrite
  split
  · rfl
  · simp only [List.length_append,List.length_take,List.length_replicate,List.length_drop]
    omega

/-- The host after `n` bytes of a buffer were written. -/
def written (h : Host) (fd : ℤ) (o : Description) (buffer : Buffer) (n : ℕ) : Host :=
  let file := overwrite (h.contents o.inode) ((List.range n).map buffer) o.offset
  { h.setOffset fd o (o.offset + n) with contents := Function.update h.contents o.inode file }

theorem fits_written {buffer : Buffer} {n j : ℕ} (hroom : o.offset + n ≤ limit)
    (hj : h.Fits j) : (h.written fd o buffer n).Fits j := by
  intro hdir
  have hfile := hj hdir
  by_cases hij : j = o.inode
  · subst hij
    simp only [written,Function.update_self,length_overwrite,List.length_map,List.length_range]
    split
    · exact hfile
    · omega
  · simp only [written,Function.update_of_ne hij]
    exact hfile

end Host

namespace Stub

variable {h : Host} {o : Description}

/-- `lseek` to a position in a file succeeds exactly for an offset that the host allows. -/
theorem Lseek_set_iff {h' : Host} {fd z : ℤ} : Lseek h fd z .set = .ok h' ↔
    ∃ o, h.description fd = some o ∧ 0 ≤ z ∧ z ≤ Host.limit ∧
      h' = h.setOffset fd o z.toNat := by
  unfold Lseek Host.lseek
  cases hd : h.description fd with
  | none => simp [check,bind,Except.bind]
  | some o =>
    by_cases hrange : z < 0 ∨ z > Host.limit
    · simp only [if_pos hrange]
      constructor
      · intro hs
        obtain ⟨hret,_⟩ := check_bind_ok.mp hs
        cases hret
      · rintro ⟨_,_,h₁,h₂,_⟩
        omega
    · simp only [if_neg hrange]
      rw [check_of (by omega)]
      constructor
      · intro hs
        cases hs
        exact ⟨o,rfl,by omega,by omega,rfl⟩
      · rintro ⟨_,ho,_,_,rfl⟩
        cases ho
        rfl

/-- Reading a regular file at a position delivers what stands there. -/
theorem OpenFile.ReadAt_eq {f : OpenFile} (hd : h.description f.file = some o)
    (hacc : o.access ≠ .writeOnly) (hdir : h.directory o.inode = false) {position : ℤ}
    (h₀ : 0 ≤ position) (h₁ : position ≤ Host.limit) (n : ℕ) {bs : List Byte}
    (hbs : bs = ((h.contents o.inode).drop position.toNat).take n) :
    f.ReadAt h n position = .ok (bs.length,bs,
      h.setOffset f.file o (position.toNat + bs.length)) := by
  have hseek : Lseek h f.file position .set = .ok (h.setOffset f.file o position.toNat) :=
    Lseek_set_iff.mpr ⟨o,hd,h₀,h₁,rfl⟩
  have hd₁ := Host.description_setOffset hd position.toNat
  have hallowed : ¬ ((n : ℤ) < 0 ∨ o.access = .writeOnly ∨
      (h.setOffset f.file o position.toNat).directory o.inode = true) := by
    simp [hacc,Host.setOffset,hdir]
  have hread : (h.setOffset f.file o position.toNat).read f.file n =
      ((bs.length : ℤ),bs,h.setOffset f.file o (position.toNat + bs.length)) := by
    subst hbs
    unfold Host.read
    simp only [hd₁]
    rw [if_neg hallowed,Host.setOffset_setOffset,Int.toNat_natCast]
    rfl
  exact bind_ok.mpr ⟨_,hseek,congrArg Except.ok hread⟩

/-- Reading a regular file delivers what stands at the offset, and moves the offset. -/
theorem OpenFile.Read_eq {f : OpenFile} (hd : h.description f.file = some o)
    (hacc : o.access ≠ .writeOnly) (hdir : h.directory o.inode = false)
    (h₀ : 0 ≤ f.currentOffset) (h₁ : f.currentOffset ≤ Host.limit) (n : ℕ) {bs : List Byte}
    (hbs : bs = ((h.contents o.inode).drop f.currentOffset.toNat).take n) :
    f.Read h n = .ok (bs.length,bs,
      { f with currentOffset := wrap (f.currentOffset + bs.length) },
      h.setOffset f.file o (f.currentOffset.toNat + bs.length)) :=
  bind_ok.mpr ⟨_,OpenFile.ReadAt_eq hd hacc hdir h₀ h₁ n hbs,rfl⟩

/-- The offset after a read. -/
theorem read_range {file : List Byte} {offset : ℤ} (h₀ : 0 ≤ offset) (h₁ : offset ≤ Host.limit)
    (hfile : file.length ≤ Host.limit) (length : ℕ) :
    offset + ((file.drop offset.toNat).take length).length ≤ max offset file.length ∧
      wrap (offset + ((file.drop offset.toNat).take length).length) =
        offset + ((file.drop offset.toNat).take length).length := by
  have hmax : offset + ((file.drop offset.toNat).take length).length ≤ max offset file.length := by
    simp only [List.length_take,List.length_drop]
    omega
  refine ⟨hmax,wrap_of_range (by omega) ?_⟩
  simp only [Host.limit] at h₁ hfile
  omega

/-- `WriteFile` succeeds exactly if all bytes fit below the limit of the host. -/
theorem WriteFile_iff {h' : Host} {f : ℤ} (buffer : Buffer) {n : ℕ}
    (hd : h.description f = some o) (hacc : o.access = .readWrite) :
    WriteFile h f buffer n = .ok h' ↔ (n = 0 ∨ o.offset + n ≤ Host.limit) ∧
      h' = h.written f o buffer n := by
  unfold WriteFile Host.write
  by_cases hfull : n > 0 ∧ Host.limit ≤ o.offset
  · have hrefused : (n : ℤ) < 0 ∨ o.access = .readOnly ∨ (n : ℤ) > 0 ∧ Host.limit ≤ o.offset :=
      Or.inr (Or.inr ⟨by omega,hfull.2⟩)
    simp only [hd,if_pos hrefused]
    constructor
    · intro hw
      obtain ⟨hret,_⟩ := check_bind_ok.mp hw
      omega
    · rintro ⟨hfit,_⟩
      omega
  · have hallowed : ¬ ((n : ℤ) < 0 ∨ o.access = .readOnly ∨
        (n : ℤ) > 0 ∧ Host.limit ≤ o.offset) := by
      rw [hacc]
      rintro (hneg | hro | ⟨hpos,hlim⟩)
      · omega
      · cases hro
      · exact hfull ⟨by omega,hlim⟩
    simp only [hd,if_neg hallowed,Int.toNat_natCast,List.length_map,List.length_range]
    by_cases hfit : n = 0 ∨ o.offset + n ≤ Host.limit
    · have hmin : min n (Host.limit - o.offset) = n := by omega
      simp only [hmin]
      rw [check_of trivial]
      constructor
      · intro hw
        cases hw
        exact ⟨hfit,rfl⟩
      · rintro ⟨_,rfl⟩
        rfl
    · constructor
      · intro hw
        obtain ⟨hret,_⟩ := check_bind_ok.mp hw
        omega
      · rintro ⟨hfit',_⟩
        exact absurd hfit' hfit

/-- `Write` succeeds exactly if the host has room, and then all bytes are written. -/
theorem OpenFile.Write_iff {f : OpenFile} (hd : h.description f.file = some o)
    (hacc : o.access = .readWrite) (h₀ : 0 ≤ f.currentOffset)
    (h₁ : f.currentOffset ≤ Host.limit) (buffer : Buffer) (n : ℕ) {r : ℤ × OpenFile × Host} :
    f.Write h buffer n = .ok r ↔ f.currentOffset.toNat + n ≤ Host.limit ∧
      r = ((n : ℤ),{ f with currentOffset := wrap (f.currentOffset + n) },
        h.written f.file { o with offset := f.currentOffset.toNat } buffer n) := by
  have hseek : Lseek h f.file f.currentOffset .set =
      .ok (h.setOffset f.file o f.currentOffset.toNat) := Lseek_set_iff.mpr ⟨o,hd,h₀,h₁,rfl⟩
  have hd₁ := Host.description_setOffset hd f.currentOffset.toNat
  have hwritten : (h.setOffset f.file o f.currentOffset.toNat).written f.file
      { o with offset := f.currentOffset.toNat } buffer n =
      h.written f.file { o with offset := f.currentOffset.toNat } buffer n := by
    simp [Host.written,Host.setOffset]
  constructor
  · intro hw
    obtain ⟨⟨numWritten,h'⟩,hat,hw⟩ := bind_ok.mp hw
    cases hw
    obtain ⟨h₁',hseek',hat⟩ := bind_ok.mp hat
    cases hseek.symm.trans hseek'
    obtain ⟨h₂,hwrite,hat⟩ := bind_ok.mp hat
    cases hat
    obtain ⟨hfit,rfl⟩ := (WriteFile_iff buffer hd₁ hacc).mp hwrite
    rw [hwritten]
    exact ⟨by simp only at hfit; omega,rfl⟩
  · rintro ⟨hfit,rfl⟩
    have hwrite := (WriteFile_iff buffer hd₁ hacc).mpr ⟨Or.inr hfit,hwritten.symm⟩
    exact bind_ok.mpr ⟨_,bind_ok.mpr ⟨_,hseek,bind_ok.mpr ⟨_,hwrite,rfl⟩⟩,rfl⟩

/-- `Length` leaves the host's offset at the end of the file. -/
theorem OpenFile.Length_iff {f : OpenFile} {r : ℤ × Host} : f.Length h = .ok r ↔
    ∃ o, h.description f.file = some o ∧ (h.contents o.inode).length ≤ Host.limit ∧
      r = (((h.contents o.inode).length : ℤ),
        h.setOffset f.file o (h.contents o.inode).length) := by
  cases hd : h.description f.file with
  | none => simp [Length,Lseek,Host.lseek,hd,check,bind,Except.bind]
  | some o =>
    let length := (h.contents o.inode).length
    have hd₁ := Host.description_setOffset hd length
    by_cases hfit : length ≤ Host.limit
    · have hrange : ¬ ((length : ℤ) < 0 ∨ (length : ℤ) > Host.limit) := by omega
      have hseek : Lseek h f.file 0 .fromEnd = .ok (h.setOffset f.file o length) := by
        unfold Lseek Host.lseek
        simp only [hd,Int.add_zero]
        rw [if_neg hrange,check_of (by omega),Int.toNat_natCast]
        rfl
      have htell : Tell (h.setOffset f.file o length) f.file =
          ((length : ℤ),h.setOffset f.file o length) := by
        unfold Tell Host.lseek
        simp only [hd₁,Int.add_zero]
        rw [if_neg hrange,Int.toNat_natCast,Host.setOffset_setOffset]
      have hlength : f.Length h = .ok ((length : ℤ),h.setOffset f.file o length) :=
        bind_ok.mpr ⟨_,hseek,congrArg Except.ok htell⟩
      constructor
      · intro hr
        cases hlength.symm.trans hr
        exact ⟨o,rfl,hfit,rfl⟩
      · rintro ⟨_,ho,_,rfl⟩
        cases ho
        exact hlength
    · have hrange : (length : ℤ) < 0 ∨ (length : ℤ) > Host.limit := by omega
      have hseek : Lseek h f.file 0 .fromEnd = .error .assertion := by
        unfold Lseek Host.lseek
        simp only [hd,Int.add_zero]
        rw [if_pos hrange]
        rfl
      constructor
      · intro hr
        obtain ⟨h',hseek',_⟩ := bind_ok.mp hr
        cases hseek.symm.trans hseek'
      · rintro ⟨_,ho,hlen,_⟩
        cases ho
        exact absurd hlen hfit

/-- The result of `Seek` in a file of the given length, and the new offset. -/
def seekTarget (position length offset : ℤ) : ℤ × ℤ :=
  if position = -1 then (length,length)
  else if 0 ≤ position ∧ position ≤ length then (position,position)
  else (-1,offset)

theorem seekTarget_range (position : ℤ) (length : ℕ) {offset : ℤ} (h₀ : 0 ≤ offset) :
    0 ≤ (seekTarget position length offset).2 ∧
      (seekTarget position length offset).2 ≤ max offset length := by
  unfold seekTarget
  split
  · omega
  · split
    · omega
    · omega

theorem OpenFile.Seek_iff {f : OpenFile} (position : ℤ) {r : ℤ × OpenFile × Host} :
    f.Seek h position = .ok r ↔
      ∃ o, h.description f.file = some o ∧ (h.contents o.inode).length ≤ Host.limit ∧
        r = ((seekTarget position (h.contents o.inode).length f.currentOffset).1,
          { f with currentOffset :=
            (seekTarget position (h.contents o.inode).length f.currentOffset).2 },
          h.setOffset f.file o (h.contents o.inode).length) := by
  have hbody : ∀ (length : ℤ) (h' : Host), (if position = -1 then
      (return (length,{ f with currentOffset := length },h') : Except Fault _)
      else if 0 ≤ position ∧ position ≤ length then
        return (position,{ f with currentOffset := position },h')
      else return (-1,f,h')) =
      .ok ((seekTarget position length f.currentOffset).1,
        { f with currentOffset := (seekTarget position length f.currentOffset).2 },h') := by
    intro length h'
    unfold seekTarget
    split
    · rfl
    · split <;> rfl
  constructor
  · intro hr
    obtain ⟨⟨length,h'⟩,hlength,hr⟩ := bind_ok.mp hr
    obtain ⟨o,hd,hfit,he⟩ := Length_iff.mp hlength
    cases he
    cases (hbody _ _).symm.trans hr
    exact ⟨o,hd,hfit,rfl⟩
  · rintro ⟨o,hd,hfit,rfl⟩
    exact bind_ok.mpr ⟨_,Length_iff.mpr ⟨o,hd,hfit,rfl⟩,hbody _ _⟩

namespace FileSystem

/-- The bytes of a file from the offset of a descriptor on. -/
def remaining (s : FileSystem) (fd : ℤ) : List Byte :=
  match s.get fd with
  | none => []
  | some f =>
    match s.host.description f.file with
    | none => []
    | some o => (s.host.contents o.inode).drop f.currentOffset.toNat

/-- Descriptor `fd` is open for reading and writing on a regular file with the given
contents, at offset `p`. -/
def ReadWrite (s : FileSystem) (fd : ℤ) (file : List Byte) (p : ℕ) : Prop :=
  ∃ f o, s.get fd = some f ∧ f.currentOffset = p ∧ s.host.description f.file = some o ∧
    o.access = .readWrite ∧ s.host.directory o.inode = false ∧ s.host.contents o.inode = file

theorem get_update {s : FileSystem} {fd : ℤ} {f g : OpenFile} {host : Host}
    (hf : s.get fd = some f) :
    FileSystem.get ⟨Function.update s.fdTable fd.toNat (some g),host⟩ fd = some g := by
  unfold get at hf ⊢
  split at hf
  · cases hf
  · next hfd =>
    rw [if_neg hfd]
    exact Function.update_self _ _ _

theorem ReadWrite.remaining {s : FileSystem} {fd : ℤ} {file : List Byte} {p : ℕ}
    (h : s.ReadWrite fd file p) : s.remaining fd = file.drop p := by
  obtain ⟨f,o,hget,hoff,hd,_,_,hfile⟩ := h
  simp only [FileSystem.remaining,hget,hd,hfile,hoff,Int.toNat_natCast]

end FileSystem

variable {s : FileSystem} {fd : ℤ} {file : List Byte} {p : ℕ}

/-- `Read` fails, or delivers what stands in the file at the offset. -/
theorem SysRead_cases {length result : ℤ} {bs : List Byte} {s' : FileSystem}
    (h : SysRead s length fd = .ok (result,bs,s')) :
    result = -1 ∨ bs = (s.remaining fd).take length.toNat ∧ result = bs.length := by
  unfold SysRead at h
  cases hget : s.get fd with
  | none =>
    rw [hget] at h
    cases h
    exact Or.inl rfl
  | some f =>
    simp only [hget] at h
    split at h
    · cases h
      exact Or.inl rfl
    · obtain ⟨⟨value,into,f',host⟩,hread,h⟩ := bind_ok.mp h
      cases h
      obtain ⟨⟨numRead,into',host'⟩,hat,hread⟩ := bind_ok.mp hread
      cases hread
      obtain ⟨h₁,hseek,hat⟩ := bind_ok.mp hat
      obtain ⟨o,hd,_,_,rfl⟩ := Lseek_set_iff.mp hseek
      have hd₁ := Host.description_setOffset hd f.currentOffset.toNat
      simp only [ReadPartial,Host.read,hd₁] at hat
      split at hat
      · cases hat
        exact Or.inl rfl
      · cases hat
        refine Or.inr ⟨?_,rfl⟩
        simp only [FileSystem.remaining,hget,hd]
        rfl

/-- A descriptor that is open for reading is read. -/
theorem SysRead_of_readWrite (hs : s.ReadWrite fd file p) (hp : p ≤ Host.limit) (n : ℕ) :
    ∃ s', SysRead s n fd = .ok (((file.drop p).take n).length,(file.drop p).take n,s') := by
  obtain ⟨f,o,hget,hoff,hd,hacc,hdir,rfl⟩ := hs
  have hreadable : ¬ f.isReadable s.host = false := by
    simp [OpenFile.isReadable,hd,hacc]
  have hread := OpenFile.Read_eq (f := f) hd (by simp [hacc]) hdir (by omega) (by omega) n rfl
  rw [hoff,Int.toNat_natCast] at hread
  unfold SysRead
  simp only [hget,if_neg hreadable]
  exact ⟨_,bind_ok.mpr ⟨_,hread,rfl⟩⟩

/-- `Write` to a descriptor that is open for writing succeeds exactly if the host has room,
and then all bytes are written. -/
theorem SysWrite_ok {buffer : Buffer} {n : ℕ} {r : ℤ} {s' : FileSystem}
    (hs : s.ReadWrite fd file p) (h : SysWrite s buffer n fd = .ok (r,s')) :
    p + n ≤ Host.limit ∧ r = n ∧
      s'.ReadWrite fd (Host.overwrite file ((List.range n).map buffer) p) (p + n) := by
  obtain ⟨f,o,hget,hoff,hd,hacc,hdir,rfl⟩ := hs
  have hwritable : ¬ f.isWritable s.host = false := by
    simp [OpenFile.isWritable,hd,hacc]
  unfold SysWrite at h
  simp only [hget,if_neg hwritable] at h
  obtain ⟨⟨value,f',host⟩,hwrite,h⟩ := bind_ok.mp h
  cases h
  have hlim : (p : ℤ) ≤ Host.limit := by
    obtain ⟨_,hat,_⟩ := bind_ok.mp hwrite
    obtain ⟨_,hseek,_⟩ := bind_ok.mp hat
    obtain ⟨_,_,_,hlim,_⟩ := Lseek_set_iff.mp hseek
    rwa [hoff] at hlim
  obtain ⟨hroom,he⟩ := (OpenFile.Write_iff hd hacc (by omega) (by omega) buffer n).mp hwrite
  cases he
  simp only [hoff,Int.toNat_natCast] at hroom ⊢
  refine ⟨hroom,trivial,{ f with currentOffset := wrap ((p : ℤ) + n) },_,FileSystem.get_update hget,
    ?_,Host.description_setOffset hd (p + n),hacc,hdir,?_⟩
  · simp only [Host.limit] at hroom
    rw [wrap_of_range (by omega) (by omega)]
    push_cast
    rfl
  · exact Function.update_self _ _ _

theorem SysWrite_of_readWrite (hs : s.ReadWrite fd file p) (buffer : Buffer) {n : ℕ}
    (hn : p + n ≤ Host.limit) : ∃ r, SysWrite s buffer n fd = .ok r := by
  obtain ⟨f,o,hget,hoff,hd,hacc,hdir,rfl⟩ := hs
  have hwritable : ¬ f.isWritable s.host = false := by
    simp [OpenFile.isWritable,hd,hacc]
  have hwrite := (OpenFile.Write_iff hd hacc (by omega) (by omega) buffer n).mpr
    ⟨by rw [hoff,Int.toNat_natCast]; exact hn,rfl⟩
  unfold SysWrite
  simp only [hget,if_neg hwritable]
  exact ⟨_,bind_ok.mpr ⟨_,hwrite,rfl⟩⟩

/-- `Seek` to a position past the end leaves the offset alone. -/
theorem SysSeek_of_readWrite (hs : s.ReadWrite fd file p) (hfile : file.length ≤ Host.limit)
    (q : ℕ) : ∃ r s', SysSeek s q fd = .ok (r,s') ∧
      s'.ReadWrite fd file (if q ≤ file.length then q else p) := by
  obtain ⟨f,o,hget,hoff,hd,hacc,hdir,rfl⟩ := hs
  have hseek := (OpenFile.Seek_iff (q : ℤ)).mpr ⟨o,hd,hfile,rfl⟩
  have htarget : (seekTarget q (s.host.contents o.inode).length f.currentOffset).2 =
      ((if q ≤ (s.host.contents o.inode).length then q else p : ℕ) : ℤ) := by
    unfold seekTarget
    rw [if_neg (by omega)]
    by_cases hq : q ≤ (s.host.contents o.inode).length
    · rw [if_pos (by omega),if_pos hq]
    · rw [if_neg (by omega),if_neg hq]
      exact hoff
  unfold SysSeek
  simp only [hget]
  exact ⟨_,_,bind_ok.mpr ⟨_,hseek,rfl⟩,_,_,FileSystem.get_update hget,htarget,
    Host.description_setOffset hd _,hacc,hdir,rfl⟩

/-! Several descriptors. -/

namespace FileSystem

/-- Descriptor `fd` is at offset `p` of the regular file `i`, as descriptor `n` of the
host. -/
structure Positioned (s : FileSystem) (fd : ℤ) (n i : ℕ) (access : Access) (p : ℕ) : Prop where
  slot : s.get fd = some ⟨n,p⟩
  description : ∃ offset, s.host.fds n = some ⟨i,access,offset⟩
  regular : s.host.directory i = false

/-- Nothing but descriptor `fd`, which is `n` of the host, and the contents of files has
changed. -/
structure OnlyDescriptor (s s' : FileSystem) (fd : ℤ) (n : ℕ) : Prop where
  slots : ∀ fd', fd' ≠ fd → s'.get fd' = s.get fd'
  fds : ∀ n', n' ≠ n → s'.host.fds n' = s.host.fds n'
  names : s'.host.names = s.host.names
  directory : s'.host.directory = s.host.directory

theorem Positioned.readWrite {s : FileSystem} {fd : ℤ} {n i p : ℕ}
    (h : s.Positioned fd n i .readWrite p) : s.ReadWrite fd (s.host.contents i) p := by
  obtain ⟨offset,hfds⟩ := h.description
  exact ⟨_,_,h.slot,rfl,(Host.description_natCast _ _).trans hfds,rfl,h.regular,rfl⟩

theorem OnlyDescriptor.positioned {s s' : FileSystem} {fd fd' : ℤ} {n n' i p : ℕ}
    {access : Access} (h : s.OnlyDescriptor s' fd n) (hfd : fd' ≠ fd) (hn : n' ≠ n)
    (hp : s.Positioned fd' n' i access p) : s'.Positioned fd' n' i access p := by
  refine ⟨(h.slots fd' hfd).trans hp.slot,?_,?_⟩
  · rw [h.fds n' hn]
    exact hp.description
  · rw [h.directory]
    exact hp.regular

theorem get_update_ne {s : FileSystem} {fd fd' : ℤ} {f : OpenFile} (hf : s.get fd = some f)
    (hne : fd' ≠ fd) (g : Option OpenFile) (host : Host) :
    FileSystem.get ⟨Function.update s.fdTable fd.toNat g,host⟩ fd' = s.get fd' := by
  unfold get at hf ⊢
  split at hf
  · cases hf
  · split
    · rfl
    · exact Function.update_of_ne (by omega) _ _

end FileSystem

section Positioned

variable {n i : ℕ} {access : Access} (hs : s.Positioned fd n i access p)

include hs

theorem SysRead_positioned (hacc : access ≠ .writeOnly)
    (hfile : (s.host.contents i).length ≤ Host.limit) (hp : p ≤ (s.host.contents i).length)
    {bs : List Byte} {m : ℕ} (hbs : bs = ((s.host.contents i).drop p).take m) :
    ∃ s', SysRead s m fd = .ok (bs.length,bs,s') ∧
      s'.Positioned fd n i access (p + bs.length) ∧ s.OnlyDescriptor s' fd n ∧
      s'.host.contents = s.host.contents := by
  obtain ⟨offset,hfds⟩ := hs.description
  have hd : s.host.description n = some ⟨i,access,offset⟩ :=
    (Host.description_natCast _ _).trans hfds
  have hreadable : ¬ OpenFile.isReadable ⟨n,p⟩ s.host = false := by
    cases access with
    | readOnly => simp [OpenFile.isReadable,hd]
    | writeOnly => exact absurd rfl hacc
    | readWrite => simp [OpenFile.isReadable,hd]
  have hread := OpenFile.Read_eq (f := ⟨n,p⟩) hd hacc hs.regular (Int.natCast_nonneg p)
    (by simp only; omega) m hbs
  have hrange := (read_range (Int.natCast_nonneg p) (by omega) hfile m).2
  rw [Int.toNat_natCast,← hbs] at hrange
  simp only [hrange,Int.toNat_natCast] at hread
  refine ⟨⟨Function.update s.fdTable fd.toNat (some ⟨n,p + bs.length⟩),
    s.host.setOffset n ⟨i,access,offset⟩ (p + bs.length)⟩,?_,⟨?_,?_,hs.regular⟩,
    ⟨fun fd' hne => ?_,fun n' hne => ?_,rfl,rfl⟩,rfl⟩
  · unfold SysRead
    simp only [hs.slot,if_neg hreadable]
    exact bind_ok.mpr ⟨_,hread,rfl⟩
  · rw [FileSystem.get_update hs.slot]
    push_cast
    rfl
  · refine ⟨p + bs.length,?_⟩
    simp [Host.setOffset]
  · exact FileSystem.get_update_ne hs.slot hne _ _
  · exact Function.update_of_ne (by simpa using hne) _ _

theorem SysWrite_positioned (hacc : access = .readWrite) (buffer : Buffer) {m : ℕ}
    (hroom : p + m ≤ Host.limit) :
    ∃ s', SysWrite s buffer m fd = .ok ((m : ℤ),s') ∧ s'.Positioned fd n i access (p + m) ∧
      s.OnlyDescriptor s' fd n ∧ s'.host.contents = Function.update s.host.contents i
        (Host.overwrite (s.host.contents i) ((List.range m).map buffer) p) := by
  obtain ⟨offset,hfds⟩ := hs.description
  have hd : s.host.description n = some ⟨i,access,offset⟩ :=
    (Host.description_natCast _ _).trans hfds
  have hwritable : ¬ OpenFile.isWritable ⟨n,p⟩ s.host = false := by
    simp [OpenFile.isWritable,hd,hacc]
  have hwrite := (OpenFile.Write_iff (f := ⟨n,p⟩) hd hacc (Int.natCast_nonneg p)
    (by simp only; omega) buffer m).mpr ⟨by simpa using hroom,rfl⟩
  have hwrap : wrap ((p : ℤ) + m) = (p + m : ℕ) := by
    simp only [Host.limit] at hroom
    rw [wrap_of_range (by omega) (by omega)]
    push_cast
    rfl
  simp only [hwrap,Int.toNat_natCast] at hwrite
  refine ⟨⟨Function.update s.fdTable fd.toNat (some ⟨n,(p + m : ℕ)⟩),
    s.host.written n ⟨i,access,p⟩ buffer m⟩,?_,⟨?_,?_,hs.regular⟩,
    ⟨fun fd' hne => ?_,fun n' hne => ?_,rfl,rfl⟩,rfl⟩
  · unfold SysWrite
    simp only [hs.slot,if_neg hwritable]
    exact bind_ok.mpr ⟨_,hwrite,rfl⟩
  · exact FileSystem.get_update hs.slot
  · refine ⟨p + m,?_⟩
    simp [Host.written,Host.setOffset]
  · exact FileSystem.get_update_ne hs.slot hne _ _
  · exact Function.update_of_ne (by simpa using hne) _ _

/-- `Seek` to `-1` goes to the end of the file. -/
theorem SysSeek_positioned (hfile : (s.host.contents i).length ≤ Host.limit) :
    ∃ s', SysSeek s (-1) fd = .ok (((s.host.contents i).length : ℤ),s') ∧
      s'.Positioned fd n i access (s.host.contents i).length ∧ s.OnlyDescriptor s' fd n ∧
      s'.host.contents = s.host.contents := by
  obtain ⟨offset,hfds⟩ := hs.description
  have hd : s.host.description n = some ⟨i,access,offset⟩ :=
    (Host.description_natCast _ _).trans hfds
  have hseek := (OpenFile.Seek_iff (f := ⟨n,p⟩) (-1)).mpr ⟨_,hd,hfile,rfl⟩
  refine ⟨⟨Function.update s.fdTable fd.toNat (some ⟨n,(s.host.contents i).length⟩),
    s.host.setOffset n ⟨i,access,offset⟩ (s.host.contents i).length⟩,?_,⟨?_,?_,hs.regular⟩,
    ⟨fun fd' hne => ?_,fun n' hne => ?_,rfl,rfl⟩,rfl⟩
  · unfold SysSeek
    simp only [hs.slot]
    exact bind_ok.mpr ⟨_,hseek,rfl⟩
  · exact FileSystem.get_update hs.slot
  · refine ⟨(s.host.contents i).length,?_⟩
    simp [Host.setOffset]
  · exact FileSystem.get_update_ne hs.slot hne _ _
  · exact Function.update_of_ne (by simpa using hne) _ _

theorem SysClose_positioned : ∃ s', SysClose s fd = .ok (0,s') ∧ s.OnlyDescriptor s' fd n ∧
    s'.host.contents = s.host.contents := by
  obtain ⟨offset,hfds⟩ := hs.description
  have hclose : Close s.host n = .ok { s.host with fds := Function.update s.host.fds n none } := by
    simp [Close,Host.close,Host.description_natCast,hfds,check,bind,Except.bind,pure,Except.pure]
  refine ⟨⟨Function.update s.fdTable fd.toNat none,
    { s.host with fds := Function.update s.host.fds n none }⟩,?_,
    ⟨fun fd' hne => ?_,fun n' hne => ?_,rfl,rfl⟩,rfl⟩
  · unfold SysClose FileSystem.Close
    simp only [hs.slot]
    exact bind_ok.mpr ⟨_,hclose,rfl⟩
  · exact FileSystem.get_update_ne hs.slot hne _ _
  · exact Function.update_of_ne hne _ _

end Positioned

end Stub
end NachOS
