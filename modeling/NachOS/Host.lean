import NachOS.Memory

/-! Files and directories of a POSIX host, as the process under study sees them: names, file
contents and open file descriptions.  What the host decides by itself (to refuse a
call, which free number an open descriptor gets, which file a new name stands for) is
read off a list of choices, so that a statement about all hosts is one about all lists. -/
namespace NachOS

abbrev Path := List Byte

inductive Access
  | readOnly | writeOnly | readWrite
  deriving DecidableEq, Repr

/-- An open file description. -/
structure Description where
  inode : ℕ
  access : Access
  offset : ℕ

/-- The decisions about one call: the descriptor number, and the inode of a new file. -/
structure Choice where
  fd : ℕ
  inode : ℕ

/-- Every name is one of a regular file or a directory: there are no devices, whose length is
0 whatever is read from them, and no transfer fails with an I/O error.  Of a directory only the
length of `contents` means anything: where `lseek` puts its end. -/
structure Host where
  names : Path → Option ℕ
  contents : ℕ → List Byte
  directory : ℕ → Bool
  used : ℕ → Bool
  fds : ℕ → Option Description
  choices : ℕ → Option Choice

namespace Host

/-- The greatest offset in a file, for a process with 32-bit offsets. -/
abbrev limit : ℕ := 2 ^ 31 - 1

inductive Whence
  | set | cur | fromEnd
  deriving DecidableEq, Repr

def next (h : Host) : Host := { h with choices := fun n => h.choices (n + 1) }

def description (h : Host) (fd : ℤ) : Option Description :=
  if fd < 0 then none else h.fds fd.toNat

def setOffset (h : Host) (fd : ℤ) (o : Description) (offset : ℕ) : Host :=
  { h with fds := Function.update h.fds fd.toNat (some { o with offset := offset }) }

/-- Files that `open` refuses: a directory for writing, and a regular file too long for the
process. -/
def refuses (h : Host) (inode : ℕ) (access : Access) : Bool :=
  if h.directory inode then access != .readOnly
  else decide (limit < (h.contents inode).length)

/-- `open`; the result is `-1` if the host refuses. -/
def openFd (h : Host) (name : Path) (access : Access) (create truncate : Bool) : ℤ × Host :=
  match h.choices 0 with
  | none => (-1,h.next)
  | some c =>
    if (h.fds c.fd).isSome then (-1,h.next)
    else
      match h.names name with
      | some i =>
        if h.refuses i access then (-1,h.next)
        else
          (c.fd,{ h.next with
            contents := if truncate then Function.update h.contents i [] else h.contents,
            fds := Function.update h.fds c.fd (some ⟨i,access,0⟩) })
      | none =>
        if create = true ∧ name ≠ [] ∧ h.used c.inode = false then
          (c.fd,{ h.next with
            names := Function.update h.names name (some c.inode),
            contents := Function.update h.contents c.inode [],
            directory := Function.update h.directory c.inode false,
            used := Function.update h.used c.inode true,
            fds := Function.update h.fds c.fd (some ⟨c.inode,access,0⟩) })
        else (-1,h.next)

def close (h : Host) (fd : ℤ) : ℤ × Host :=
  match h.description fd with
  | none => (-1,h)
  | some _ => (0,{ h with fds := Function.update h.fds fd.toNat none })

def lseek (h : Host) (fd offset : ℤ) (whence : Whence) : ℤ × Host :=
  match h.description fd with
  | none => (-1,h)
  | some o =>
    let target : ℤ := match whence with
      | .set => offset
      | .cur => o.offset + offset
      | .fromEnd => (h.contents o.inode).length + offset
    if target < 0 ∨ target > limit then (-1,h)
    else (target,h.setOffset fd o target.toNat)

/-- `read`: the count, the bytes and the new state. -/
def read (h : Host) (fd nBytes : ℤ) : ℤ × List Byte × Host :=
  match h.description fd with
  | none => (-1,[],h)
  | some o =>
    if nBytes < 0 ∨ o.access = .writeOnly ∨ h.directory o.inode = true then (-1,[],h)
    else
      let bs := ((h.contents o.inode).drop o.offset).take nBytes.toNat
      (bs.length,bs,h.setOffset fd o (o.offset + bs.length))

/-- The file after `bs` was written at `offset`; a gap is filled with zeros. -/
def overwrite (file bs : List Byte) (offset : ℕ) : List Byte :=
  if bs = [] then file
  else file.take offset ++ List.replicate (offset - file.length) 0#8 ++ bs ++
    file.drop (offset + bs.length)

/-- `write` of the first `nBytes` bytes of `buffer`. -/
def write (h : Host) (fd : ℤ) (buffer : Buffer) (nBytes : ℤ) : ℤ × Host :=
  match h.description fd with
  | none => (-1,h)
  | some o =>
    if nBytes < 0 ∨ o.access = .readOnly ∨ nBytes > 0 ∧ limit ≤ o.offset then (-1,h)
    else
      let bs := (List.range (min nBytes.toNat (limit - o.offset))).map buffer
      let file := overwrite (h.contents o.inode) bs o.offset
      (bs.length,{ h.setOffset fd o (o.offset + bs.length) with
        contents := Function.update h.contents o.inode file })

def unlink (h : Host) (name : Path) : ℤ × Host :=
  match h.choices 0,h.names name with
  | some _,some i =>
    if h.directory i then (-1,h.next)
    else (0,{ h.next with names := Function.update h.names name none })
  | _,_ => (-1,h.next)

/-- The inode number that `fstat` reports. -/
def fstat (h : Host) (fd : ℤ) : Option ℕ := (h.description fd).map (·.inode)

/-- A host with one file, of the given bytes and the name of one character, that opens it
as descriptor 3. -/
def oneFile (c : Byte) (bs : List Byte) : Host where
  names := fun q => if q = [c] then some 3 else none
  contents := fun _ => bs
  directory := fun _ => false
  used := fun j => j == 3
  fds := fun _ => none
  choices := fun _ => some ⟨3,4⟩

/-! What the calls do. -/

variable {h : Host} {fd : ℤ} {o : Description} {n : ℕ}

theorem description_natCast (h : Host) (n : ℕ) : h.description n = h.fds n := by
  simp [description]

/-- What `open` does when it succeeds, with descriptor `n` for the file `i`. -/
structure Opened (h : Host) (name : Path) (access : Access) (create truncate : Bool) (n i : ℕ)
    (h' : Host) : Prop where
  free : h.fds n = none
  fds : h'.fds = Function.update h.fds n (some ⟨i,access,0⟩)
  names : h'.names = Function.update h.names name (some i)
  choices : h'.choices = h.next.choices
  file : (h.names name = some i ∧ h.refuses i access = false ∧ h'.used = h.used ∧
      h'.directory = h.directory ∧
      h'.contents = if truncate then Function.update h.contents i [] else h.contents) ∨
    (create = true ∧ h.names name = none ∧ name ≠ [] ∧ h.used i = false ∧
      h'.used = Function.update h.used i true ∧
      h'.directory = Function.update h.directory i false ∧
      h'.contents = Function.update h.contents i [])

/-- `open` is refused, or takes the descriptor that the host chooses, and the new file. -/
theorem openFd_chosen (h : Host) (name : Path) (access : Access) (create truncate : Bool) :
    h.openFd name access create truncate = (-1,h.next) ∨
    ∃ (c : Choice) (i : ℕ) (h' : Host), h.choices 0 = some c ∧
      (h.names name = none → i = c.inode) ∧
      h.openFd name access create truncate = ((c.fd : ℤ),h') ∧
      Opened h name access create truncate c.fd i h' := by
  unfold openFd
  cases hc : h.choices 0 with
  | none => exact Or.inl rfl
  | some c =>
    by_cases hfree : (h.fds c.fd).isSome = true
    · simp only [if_pos hfree]
      exact Or.inl trivial
    · have hnone : h.fds c.fd = none := by simpa using hfree
      simp only [if_neg hfree]
      cases hn : h.names name with
      | some i =>
        by_cases hrefused : h.refuses i access = true
        · simp only [if_pos hrefused]
          exact Or.inl trivial
        · simp only [if_neg hrefused]
          refine Or.inr ⟨c,i,_,rfl,nofun,rfl,hnone,rfl,?_,rfl,?_⟩
          · exact (Function.update_eq_self_iff.mpr hn.symm).symm
          · exact Or.inl ⟨hn,by simpa using hrefused,rfl,rfl,rfl⟩
      | none =>
        by_cases hnew : create = true ∧ name ≠ [] ∧ h.used c.inode = false
        · simp only [if_pos hnew]
          exact Or.inr ⟨c,c.inode,_,rfl,fun _ => rfl,rfl,hnone,rfl,rfl,rfl,
            Or.inr ⟨hnew.1,hn,hnew.2.1,hnew.2.2,rfl,rfl,rfl⟩⟩
        · simp only [if_neg hnew]
          exact Or.inl trivial

theorem openFd_opened (h : Host) (name : Path) (access : Access) (create truncate : Bool) :
    h.openFd name access create truncate = (-1,h.next) ∨
    ∃ (n i : ℕ) (h' : Host), h.openFd name access create truncate = ((n : ℤ),h') ∧
      Opened h name access create truncate n i h' := by
  rcases h.openFd_chosen name access create truncate with hr | ⟨c,i,h',_,_,hr,ho⟩
  · exact Or.inl hr
  · exact Or.inr ⟨c.fd,i,h',hr,ho⟩

/-- A regular file that is not too long for the process. -/
def Fits (h : Host) (inode : ℕ) : Prop :=
  h.directory inode = false → (h.contents inode).length ≤ limit

section Opened

variable {name : Path} {access : Access} {create truncate : Bool} {i : ℕ} {h' : Host}

section

variable (ho : Opened h name access create truncate n i h')
include ho

theorem Opened.names_kept {p : Path} {k : ℕ} (hp : h.names p = some k) :
    h'.names p = some k := by
  rw [ho.names]
  by_cases he : p = name
  · subst he
    rcases ho.file with ⟨hi,_⟩ | ⟨_,hi,_⟩
    · rw [Function.update_self]
      exact hi.symm.trans hp
    · rw [hi] at hp
      cases hp
  · rw [Function.update_of_ne he]
    exact hp

theorem Opened.fits_kept {j : ℕ} (hj : h.Fits j) : h'.Fits j := by
  intro hdir
  rcases ho.file with ⟨_,_,_,hd,hc⟩ | ⟨_,_,_,_,_,hd,hc⟩
  · rw [hd] at hdir
    rw [hc]
    cases truncate with
    | false => exact hj hdir
    | true =>
      by_cases hij : j = i
      · subst hij
        simp
      · simpa [Function.update_of_ne hij] using hj hdir
  · rw [hc]
    by_cases hij : j = i
    · subst hij
      simp
    · rw [hd,Function.update_of_ne hij] at hdir
      rw [Function.update_of_ne hij]
      exact hj hdir

theorem Opened.fits : h'.Fits i := by
  intro hdir
  rcases ho.file with ⟨_,hr,_,hd,hc⟩ | ⟨_,_,_,_,_,hd,hc⟩
  · rw [hd] at hdir
    rw [hc]
    cases truncate with
    | true => simp
    | false =>
      unfold refuses at hr
      rw [hdir] at hr
      simpa using hr
  · rw [hc,Function.update_self]
    simp

theorem Opened.granted :
    (if (n : ℤ) = -1 then none else h'.fstat n) = some i := by
  have hn : ¬ (n : ℤ) = -1 := by omega
  rw [if_neg hn]
  simp [fstat,description_natCast,ho.fds]

theorem Opened.regular (hh : ∀ j, h.directory j = false) :
    ∀ j, h'.directory j = false := by
  intro j
  rcases ho.file with ⟨_,_,_,hd,_⟩ | ⟨_,_,_,_,_,hd,_⟩
  · rw [hd]
    exact hh j
  · rw [hd]
    by_cases hij : j = i
    · rw [hij,Function.update_self]
    · rw [Function.update_of_ne hij]
      exact hh j

end

theorem Opened.existing (ho : Opened h name access false false n i h') :
    h.names name = some i ∧ h'.names = h.names ∧ h'.contents = h.contents ∧
      h'.directory = h.directory ∧ h'.used = h.used := by
  rcases ho.file with ⟨hi,_,hu,hd,hc⟩ | ⟨hfalse,_⟩
  · exact ⟨hi,ho.names.trans (Function.update_eq_self_iff.mpr hi.symm),hc,hd,hu⟩
  · cases hfalse

/-- Without truncation the files that were there are as before. -/
theorem Opened.kept (ho : Opened h name access create false n i h') {j : ℕ}
    (hj : h.used j = true) :
    h'.contents j = h.contents j ∧ h'.directory j = h.directory j := by
  rcases ho.file with ⟨_,_,_,hd,hc⟩ | ⟨_,_,_,hunused,_,hd,hc⟩
  · exact ⟨congrFun hc j,congrFun hd j⟩
  · have hne : j ≠ i := by
      rintro rfl
      rw [hunused] at hj
      cases hj
    rw [hc,hd,Function.update_of_ne hne,Function.update_of_ne hne]
    exact ⟨rfl,rfl⟩

/-- A file that is opened for writing is a regular one: it was there, or it is new and
empty. -/
theorem Opened.forWriting (ho : Opened h name .readWrite create false n i h') :
    h'.directory i = false ∧ (h.names name = some i ∧ h'.contents i = h.contents i ∨
      h.names name = none ∧ h.used i = false ∧ h'.contents i = []) := by
  rcases ho.file with ⟨hi,hr,_,hd,hc⟩ | ⟨_,hi,_,hunused,_,hd,hc⟩
  · refine ⟨?_,Or.inl ⟨hi,congrFun hc i⟩⟩
    unfold refuses at hr
    rw [hd]
    by_contra hdir
    simp [hdir] at hr
  · rw [hd,hc,Function.update_self,Function.update_self]
    exact ⟨rfl,Or.inr ⟨hi,hunused,rfl⟩⟩

end Opened

/-- A file opened for reading and closed again leaves no trace. -/
theorem probe (h : Host) (name : Path) : h.openFd name .readOnly false false = (-1,h.next) ∨
    ∃ n i : ℕ, h.names name = some i ∧ h.fds n = none ∧
      h.openFd name .readOnly false false =
        ((n : ℤ),{ h.next with fds := Function.update h.fds n (some ⟨i,.readOnly,0⟩) }) ∧
      (Host.close { h.next with fds := Function.update h.fds n (some ⟨i,.readOnly,0⟩) } n).2 =
        h.next := by
  rcases h.openFd_opened name .readOnly false false with hr | ⟨n,i,h',hr,ho⟩
  · exact Or.inl hr
  · obtain ⟨hfree,hfds,hnames,hchoices,⟨hname,_,hused,hdirectory,hcontents⟩ | ⟨hfalse,_⟩⟩ := ho
    · have hsame : Function.update h.names name (some i) = h.names :=
        Function.update_eq_self_iff.mpr hname.symm
      have hback : Function.update h.fds n none = h.fds :=
        Function.update_eq_self_iff.mpr hfree.symm
      have hh : h' =
          { h.next with fds := Function.update h.fds n (some ⟨i,.readOnly,0⟩) } := by
        cases h'
        simp_all [next]
      subst hh
      refine Or.inr ⟨n,i,hname,hfree,hr,?_⟩
      simp [close,description_natCast,next,hback]
    · cases hfalse

end Host
end NachOS
