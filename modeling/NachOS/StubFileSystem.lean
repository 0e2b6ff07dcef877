import NachOS.Host

/-! The stub file system (filesys/filesys.h and filesys/openfile.h under `FILESYS_STUB`,
lib/sysdep.cc): a table of twenty descriptors over files of the host. -/
namespace NachOS
namespace Stub

open StateMachine Memory

/-! lib/sysdep.cc: calls of the host that stop the kernel on an error. -/

def OpenForWrite (h : Host) (name : Path) : Except Fault (ℤ × Host) := do
  let (fd,h) := h.openFd name .readWrite true true
  check (fd ≥ 0)
  return (fd,h)

def OpenForReadWrite (h : Host) (name : Path) (crashOnError : Bool) : Except Fault (ℤ × Host) := do
  let (fd,h) := h.openFd name .readWrite false false
  check (crashOnError = false ∨ fd ≥ 0)
  return (fd,h)

def Lseek (h : Host) (fd offset : ℤ) (whence : Host.Whence) : Except Fault Host := do
  let (retVal,h) := h.lseek fd offset whence
  check (retVal ≥ 0)
  return h

def Tell (h : Host) (fd : ℤ) : ℤ × Host := h.lseek fd 0 .cur

def ReadPartial (h : Host) (fd nBytes : ℤ) : ℤ × List Byte × Host := h.read fd nBytes

def WriteFile (h : Host) (fd : ℤ) (buffer : Buffer) (nBytes : ℤ) : Except Fault Host := do
  let (retVal,h) := h.write fd buffer nBytes
  check (retVal = nBytes)
  return h

def Close (h : Host) (fd : ℤ) : Except Fault Host := do
  let (retVal,h) := h.close fd
  check (retVal ≥ 0)
  return h

/-- The `bool` that `unlink`'s result is turned into. -/
def Unlink (h : Host) (name : Path) : Bool × Host :=
  let (retVal,h) := h.unlink name
  (retVal != 0,h)

structure OpenFile where
  file : ℤ
  currentOffset : ℤ

namespace OpenFile

def new (f : ℤ) : OpenFile := ⟨f,0⟩

def ReadAt (f : OpenFile) (h : Host) (numBytes position : ℤ) :
    Except Fault (ℤ × List Byte × Host) := do
  let h ← Lseek h f.file position .set
  return ReadPartial h f.file numBytes

def WriteAt (f : OpenFile) (h : Host) (src : Buffer) (numBytes position : ℤ) :
    Except Fault (ℤ × Host) := do
  let h ← Lseek h f.file position .set
  let h ← WriteFile h f.file src numBytes
  return (numBytes,h)

def Read (f : OpenFile) (h : Host) (numBytes : ℤ) :
    Except Fault (ℤ × List Byte × OpenFile × Host) := do
  let (numRead,into,h) ← f.ReadAt h numBytes f.currentOffset
  return (numRead,into,{ f with currentOffset := wrap (f.currentOffset + numRead) },h)

def Write (f : OpenFile) (h : Host) (src : Buffer) (numBytes : ℤ) :
    Except Fault (ℤ × OpenFile × Host) := do
  let (numWritten,h) ← f.WriteAt h src numBytes f.currentOffset
  return (numWritten,{ f with currentOffset := wrap (f.currentOffset + numWritten) },h)

def Length (f : OpenFile) (h : Host) : Except Fault (ℤ × Host) := do
  let h ← Lseek h f.file 0 .fromEnd
  return Tell h f.file

def Seek (f : OpenFile) (h : Host) (position : ℤ) : Except Fault (ℤ × OpenFile × Host) := do
  let (length,h) ← f.Length h
  if position = -1 then
    return (length,{ f with currentOffset := length },h)
  else if 0 ≤ position ∧ position ≤ length then
    return (position,{ f with currentOffset := position },h)
  else
    return (-1,f,h)

/-- The inode number is returned as an `int`. -/
def getInode (f : OpenFile) (h : Host) : ℤ :=
  match h.fstat f.file with
  | none => -1
  | some inode => wrap inode

def isReadable (f : OpenFile) (h : Host) : Bool :=
  match h.description f.file with
  | none => false
  | some o => o.access == .readOnly || o.access == .readWrite

def isWritable (f : OpenFile) (h : Host) : Bool :=
  match h.description f.file with
  | none => false
  | some o => o.access == .writeOnly || o.access == .readWrite

end OpenFile

/-- The number of entries of `fdTable`. -/
abbrev tableSize : ℕ := 20

structure FileSystem where
  fdTable : ℕ → Option OpenFile
  host : Host

namespace FileSystem

def new (host : Host) : FileSystem :=
  ⟨fun i => if i = 0 then some (.new 0) else if i = 1 then some (.new 1) else none,host⟩

def get (s : FileSystem) (fd : ℤ) : Option OpenFile :=
  if fd < 2 ∨ fd ≥ tableSize then none else s.fdTable fd.toNat

/-- `delete fdTable[fd]` runs the destructor, which closes the file of the host. -/
def Close (s : FileSystem) (fd : ℤ) : Except Fault (ℤ × FileSystem) :=
  match s.get fd with
  | none => return (-1,s)
  | some f => do
    let host ← Stub.Close s.host f.file
    return (0,⟨Function.update s.fdTable fd.toNat none,host⟩)

/-- `Close` in the body of this member function is the member function `Close`. -/
def Create (s : FileSystem) (name : Path) : Except Fault (Bool × FileSystem) := do
  let (fileDescriptor,host) ← OpenForWrite s.host name
  let s := { s with host := host }
  if fileDescriptor = -1 then
    return (false,s)
  else
    let (_,s) ← Close s fileDescriptor
    return (true,s)

/-- The `Open` that takes a name only: the file gets no slot. -/
def openFile (s : FileSystem) (name : Path) :
    Except Fault (Option OpenFile × FileSystem) := do
  let (fileDescriptor,host) ← OpenForReadWrite s.host name false
  if fileDescriptor = -1 then
    return (none,{ s with host := host })
  else
    return (some (.new fileDescriptor),{ s with host := host })

/-- The loop over slots `i` to `i + n - 1` that looks for a free one. -/
def findSlot (s : FileSystem) (i : ℕ) : ℕ → Option ℕ
  | 0 => none
  | n + 1 => if (s.fdTable i).isNone then some i else s.findSlot (i + 1) n

/-- Store a host descriptor in the first free slot, or close it again. -/
def install (s : FileSystem) (fd : ℤ) : ℤ × FileSystem :=
  if fd = -1 then (-1,s)
  else
    match s.findSlot 2 (tableSize - 2) with
    | some i => (i,{ s with fdTable := Function.update s.fdTable i (some (.new fd)) })
    | none => (-1,{ s with host := (s.host.close fd).2 })

def Open (s : FileSystem) (name : Path) (accessType : ℤ) : ℤ × FileSystem :=
  if accessType = 0 then
    let (fd,host) := s.host.openFd name .readOnly false false
    install { s with host := host } fd
  else if accessType = 1 then
    let (fd,host) := s.host.openFd name .readWrite true false
    install { s with host := host } fd
  else (-1,s)

/-- The loop of `Remove` over slots `i` to `i + n - 1`: is the file open in one of them? -/
def inUse (s : FileSystem) (inode : ℤ) (i : ℕ) : ℕ → Bool
  | 0 => false
  | n + 1 =>
    match s.fdTable i with
    | none => s.inUse inode (i + 1) n
    | some f => if inode = f.getInode s.host then true else s.inUse inode (i + 1) n

def Remove (s : FileSystem) (name : Path) : ℤ × FileSystem :=
  let (fd,host) := s.host.openFd name .readOnly false false
  let s := { s with host := host }
  if fd = -1 then (-1,s)
  else
    let inode := (OpenFile.new fd).getInode s.host
    let found := s.inUse inode 2 (tableSize - 2)
    let s := { s with host := (s.host.close fd).2 }
    if found then (-1,s)
    else
      let (failed,host) := Unlink s.host name
      (if failed = false then 1 else 0,{ s with host := host })

end FileSystem

/-! The system calls on descriptors (userprog/ksyscall.h).  They leave their result in
register 2. -/

def SysCreate (s : FileSystem) (name : Path) : Except Fault (ℤ × FileSystem) := do
  if name = [] then
    return (-1,s)
  else
    let (success,s) ← s.Create name
    return (if success then 0 else -1,s)

def SysRemove (s : FileSystem) (name : Path) : ℤ × FileSystem :=
  if name = [] then (-1,s)
  else
    let (result,s) := s.Remove name
    (if result = 1 then 0 else -1,s)

def SysOpen (s : FileSystem) (fileName : Path) (accessType : ℤ) : ℤ × FileSystem :=
  s.Open fileName accessType

def SysClose (s : FileSystem) (fd : ℤ) : Except Fault (ℤ × FileSystem) := s.Close fd

def SysRead (s : FileSystem) (length fd : ℤ) : Except Fault (ℤ × List Byte × FileSystem) :=
  match s.get fd with
  | none => return (-1,[],s)
  | some f =>
    if f.isReadable s.host = false then return (-1,[],s)
    else do
      let (value,into,f,host) ← f.Read s.host length
      return (value,into,⟨Function.update s.fdTable fd.toNat (some f),host⟩)

def SysWrite (s : FileSystem) (buffer : Buffer) (length fd : ℤ) :
    Except Fault (ℤ × FileSystem) :=
  match s.get fd with
  | none => return (-1,s)
  | some f =>
    if f.isWritable s.host = false then return (-1,s)
    else do
      let (value,f,host) ← f.Write s.host buffer length
      return (value,⟨Function.update s.fdTable fd.toNat (some f),host⟩)

def SysSeek (s : FileSystem) (position fd : ℤ) : Except Fault (ℤ × FileSystem) :=
  match s.get fd with
  | none => return (-1,s)
  | some f => do
    let (value,f,host) ← f.Seek s.host position
    return (value,⟨Function.update s.fdTable fd.toNat (some f),host⟩)

end Stub
end NachOS
