import NachOS.Machine
import NachOS.StubFileSystem

/-! The system calls (userprog/ksyscall.h).  A handler takes its arguments from registers
4, 5 and 6 of the user program and leaves its result in register 2. -/
namespace NachOS

open StateMachine hiding Machine
open Memory Stub Hardware

/-- The console as one thread at a time uses it.  End of input is delivered once, as the
`char` EOF; a byte with that value has the same effect on the device. -/
structure Console where
  input : List Byte
  ended : Bool
  output : List Byte

/-- The system calls that have a handler. -/
inductive Handler
  | halt | create | remove | openFile | read | write | seek | close | add
  | readNum | printNum | randomNum | readChar | printChar | readString | printString
  deriving DecidableEq, Repr

/-- `heap n` is what the `n`-th block allocated from now on contains at first, `random n`
what the `n`-th call of `rand` will return; `executed` records the handlers that ran. -/
structure Kernel where
  machine : Machine
  fileSystem : Stub.FileSystem
  console : Console
  heap : ℕ → Buffer
  random : ℕ → BitVec 32
  executed : List Handler

namespace Kernel

abbrev MAX_SIZE : ℕ := 1024
abbrev INT_MIN : ℤ := -2147483648

/-- The `char` that stands for end of file. -/
abbrev EOF : Byte := 255#8

def ReadRegister (k : Kernel) (num : ℕ) : Except Fault ℤ := do
  let value ← k.machine.ReadRegister num
  return value.toInt

def WriteRegister (k : Kernel) (num : ℕ) (value : ℤ) : Except Fault Kernel := do
  let machine ← k.machine.WriteRegister num (BitVec.ofInt 32 value)
  return { k with machine := machine }

/-- Every exception that `Translate` returns makes `ExceptionHandler` shut the machine
down. -/
def ReadMem (k : Kernel) (addr : ℤ) : Except Fault (ℤ × Kernel) := do
  match ← k.machine.ReadMem (BitVec.ofInt 32 addr) 1 with
  | .error _ => .error .halted
  | .ok (value,machine) => return (value,{ k with machine := machine })

def WriteMem (k : Kernel) (addr value : ℤ) : Except Fault Kernel := do
  match ← k.machine.WriteMem (BitVec.ofInt 32 addr) 1 value with
  | .error _ => .error .halted
  | .ok machine => return { k with machine := machine }

def alloc (k : Kernel) : Buffer × Kernel := (k.heap 0,{ k with heap := fun n => k.heap (n + 1) })

/-! The console. -/

def GetChar (k : Kernel) : Except Fault (Byte × Kernel) :=
  if k.console.ended = true then .error .blocked
  else
    match k.console.input with
    | [] => .ok (EOF,{ k with console := { k.console with ended := true } })
    | c :: rest =>
      .ok (c,{ k with console := { k.console with input := rest,ended := c == EOF } })

def PutChar (k : Kernel) (c : Byte) : Kernel :=
  { k with console := { k.console with output := k.console.output ++ [c] } }

def SysReadChar (k : Kernel) : Except Fault (Byte × Kernel) := k.GetChar

def SysPrintChar (k : Kernel) (c : Byte) : Kernel := k.PutChar c

/-- The loop of `SysReadString` from index `i` on, with `n` characters to go. -/
def readString (k : Kernel) (buffer : Buffer) (i : ℕ) : ℕ → Except Fault (Buffer × Kernel)
  | 0 => return (buffer,k)
  | n + 1 => do
    let (c,k) ← k.SysReadChar
    if c = 0#8 ∨ c = 10#8 then return (Function.update buffer i 0#8,k)
    else readString k (Function.update buffer i c) (i + 1) n

def SysReadString (k : Kernel) (buffer : Buffer) (length : ℤ) : Except Fault (Buffer × Kernel) :=
  k.readString buffer 0 length.toNat

/-- The loop of `SysPrintString` from index `i` on; `n` bytes of the array are left. -/
def printString (k : Kernel) (buffer : Buffer) (i : ℕ) : ℕ → Except Fault Kernel
  | 0 => .error .undefined
  | n + 1 =>
    if buffer i = 0#8 then return k
    else printString (k.SysPrintChar (buffer i)) buffer (i + 1) n

/-- `size` is the size of the array. -/
def SysPrintString (k : Kernel) (buffer : Buffer) (size : ℕ) : Except Fault Kernel :=
  k.printString buffer 0 size

def bytes (s : String) : List Byte := s.toList.map fun c => BitVec.ofNat 8 c.toNat

def text (s : String) : Buffer := fun i => (bytes s).getD i 0#8

def invalid_error : String := "Invalid\n"

def overflow_error : String := "Overflow\n"

def printText (k : Kernel) (s : String) : Except Fault Kernel :=
  k.SysPrintString (text s) ((bytes s).length + 1)

/-! Numbers. -/

/-- The loop that finds the end of the line; `n` bytes of the buffer are left. -/
def lineLength (buffer : Buffer) (i : ℕ) : ℕ → Except Fault ℕ
  | 0 => .error .undefined
  | n + 1 => if buffer i = 0#8 ∨ buffer i = 10#8 then return i else lineLength buffer (i + 1) n

/-- The loop over the digits from index `i` on, with `n` characters to go. -/
def parse (k : Kernel) (buffer : Buffer) (negative : Bool) (number : ℤ) (i : ℕ) :
    ℕ → Except Fault (ℤ × Kernel)
  | 0 => return (if negative then -number else number,k)
  | n + 1 => do
    let c := (buffer i).toInt
    if c < 48 ∨ c > 57 then
      return (0,← k.printText invalid_error)
    else if number > 214748364 ∨ number = 214748364 ∧ c > 55 then
      if number = 214748364 ∧ c = 56 ∧ negative = true then
        return (INT_MIN,k)
      else
        return (0,← k.printText overflow_error)
    else
      parse k buffer negative (number * 10 + (c - 48)) (i + 1) n

def SysReadNum (k : Kernel) : Except Fault (ℤ × Kernel) := do
  let (buffer,k) := k.alloc
  let (buffer,k) ← k.SysReadString buffer 12
  let len ← lineLength buffer 0 12
  if len = 0 then
    return (INT_MIN,← k.printText invalid_error)
  else
    let negative := buffer 0 == 45#8
    let start := if negative then 1 else 0
    k.parse buffer negative 0 start (len - start)

/-- `while (tmp) { tmp = tmp/10; ++len; }` -/
def countDigits (tmp : ℕ) : ℕ :=
  if tmp = 0 then 0 else countDigits (tmp / 10) + 1
termination_by tmp
decreasing_by omega

/-- The digits of `tmp` in places `start` to `start + n - 1`, the last digit last. -/
def putDigits (numToStr : Buffer) (tmp start : ℕ) : ℕ → Buffer
  | 0 => numToStr
  | n + 1 =>
    putDigits (Function.update numToStr (start + n) (BitVec.ofNat 8 (tmp % 10 + 48)))
      (tmp / 10) start n

def SysPrintNum (k : Kernel) (number : ℤ) : Except Fault Kernel :=
  let numToStr : Buffer := fun _ => 0#8
  if number = 0 then k.SysPrintString (Function.update numToStr 0 48#8) 12
  else if number = INT_MIN then k.SysPrintString (text "-2147483648") 12
  else if number < 0 then
    k.SysPrintString (putDigits (Function.update numToStr 0 45#8) number.natAbs 1
      (countDigits number.natAbs)) 12
  else k.SysPrintString (putDigits numToStr number.natAbs 0 (countDigits number.natAbs)) 12

def SysRandomNum (k : Kernel) : ℤ × Kernel :=
  ((k.random 0).toInt,{ k with random := fun n => k.random (n + 1) })

/-! Copies between user and kernel memory. -/

/-- The loop of `User2System` from index `i` on, with `n` bytes to go. -/
def copyIn (k : Kernel) (virtualAddress : ℤ) (keepNULL : Bool) (kernelBuffer : Buffer) (i : ℕ) :
    ℕ → Except Fault (Buffer × Kernel)
  | 0 => return (kernelBuffer,k)
  | n + 1 => do
    let (oneChar,k) ← k.ReadMem (virtualAddress + i)
    let kernelBuffer := Function.update kernelBuffer i (BitVec.ofInt 8 oneChar)
    if oneChar = 0 ∧ keepNULL = false then return (kernelBuffer,k)
    else copyIn k virtualAddress keepNULL kernelBuffer (i + 1) n

def User2System (k : Kernel) (virtualAddress limit : ℤ) (keepNULL : Bool) :
    Except Fault (Buffer × Kernel) := do
  inBounds (0 ≤ wrap (limit + 1))
  k.copyIn virtualAddress keepNULL (fun _ => 0#8) 0 limit.toNat

/-- The loop of `System2User` from index `i` on, with `n` bytes to go. -/
def copyOut (k : Kernel) (virtAddr : ℤ) (buffer : Buffer) (keepNULL : Bool) (i : ℕ) :
    ℕ → Except Fault (ℤ × Kernel)
  | 0 => return (i,k)
  | n + 1 => do
    let oneChar := (buffer i).toInt
    let k ← k.WriteMem (virtAddr + i) oneChar
    if oneChar ≠ 0 ∨ keepNULL = true then copyOut k virtAddr buffer keepNULL (i + 1) n
    else return (i + 1,k)

def System2User (k : Kernel) (virtAddr len : ℤ) (buffer : Buffer) (keepNULL : Bool) :
    Except Fault (ℤ × Kernel) :=
  if len < 0 then return (-1,k)
  else if len = 0 then return (len,k)
  else k.copyOut virtAddr buffer keepNULL 0 len.toNat

/-- The string that a kernel buffer of `MAX_SIZE + 1` bytes holds. -/
def path (buffer : Buffer) : Path := cString buffer 0 MAX_SIZE

/-! The handlers. -/

def SysHalt : Except Fault Kernel := .error .halted

def SystemCallAdd (k : Kernel) : Except Fault Kernel := do
  let op1 ← k.ReadRegister 4
  let op2 ← k.ReadRegister 5
  k.WriteRegister 2 (op1 + op2)

def SystemCallReadNum (k : Kernel) : Except Fault Kernel := do
  let (result,k) ← k.SysReadNum
  k.WriteRegister 2 result

def SystemCallPrintNum (k : Kernel) : Except Fault Kernel := do
  let number ← k.ReadRegister 4
  k.SysPrintNum number

def SystemCallRandomNum (k : Kernel) : Except Fault Kernel := do
  let (result,k) := k.SysRandomNum
  k.WriteRegister 2 result

def SystemCallReadChar (k : Kernel) : Except Fault Kernel := do
  let (c,k) ← k.SysReadChar
  k.WriteRegister 2 c.toInt

def SystemCallPrintChar (k : Kernel) : Except Fault Kernel := do
  let tmp ← k.ReadRegister 4
  return k.SysPrintChar (BitVec.ofInt 8 tmp)

def SystemCallReadString (k : Kernel) : Except Fault Kernel := do
  let virtualAddr ← k.ReadRegister 4
  let length ← k.ReadRegister 5
  if length < 0 ∨ length ≥ MAX_SIZE then
    let _ ← k.printText invalid_error
    SysHalt
  else
    let (buffer,k) := k.alloc
    let (buffer,k) ← k.SysReadString buffer length
    let (_,k) ← k.System2User virtualAddr length buffer false
    return k

/-- The loop of `SystemCallPrintString` with `n` chunks to go.  After `2 ^ 22` chunks the
address is the first one again, and the loop does not end. -/
def printChunks (k : Kernel) (virtualAddr : ℤ) : ℕ → Except Fault Kernel
  | 0 => .error .blocked
  | n + 1 => do
    let (buffer,k) ← k.User2System virtualAddr MAX_SIZE false
    let k ← k.SysPrintString buffer (MAX_SIZE + 1)
    if buffer (MAX_SIZE - 1) = 0#8 then return k
    else printChunks k (virtualAddr + MAX_SIZE) n

def SystemCallPrintString (k : Kernel) : Except Fault Kernel := do
  let virtualAddr ← k.ReadRegister 4
  k.printChunks virtualAddr (2 ^ 22)

def SystemCallCreate (k : Kernel) : Except Fault Kernel := do
  let bufferWrite ← k.ReadRegister 4
  let (tempWrite,k) ← k.User2System bufferWrite MAX_SIZE false
  let (result,fileSystem) ← SysCreate k.fileSystem (path tempWrite)
  WriteRegister { k with fileSystem := fileSystem } 2 result

def SystemCallRemove (k : Kernel) : Except Fault Kernel := do
  let bufferWrite ← k.ReadRegister 4
  let (tempWrite,k) ← k.User2System bufferWrite MAX_SIZE false
  let (result,fileSystem) := SysRemove k.fileSystem (path tempWrite)
  WriteRegister { k with fileSystem := fileSystem } 2 result

def SystemCallOpen (k : Kernel) : Except Fault Kernel := do
  let virtAddr ← k.ReadRegister 4
  let accessType ← k.ReadRegister 5
  let (buffer,k) ← k.User2System virtAddr MAX_SIZE false
  let (result,fileSystem) := SysOpen k.fileSystem (path buffer) accessType
  WriteRegister { k with fileSystem := fileSystem } 2 result

def SystemCallClose (k : Kernel) : Except Fault Kernel := do
  let fd ← k.ReadRegister 4
  let (result,fileSystem) ← SysClose k.fileSystem fd
  WriteRegister { k with fileSystem := fileSystem } 2 result

def SystemCallSeek (k : Kernel) : Except Fault Kernel := do
  let position ← k.ReadRegister 4
  let fd ← k.ReadRegister 5
  if fd < 2 then
    let k ← k.printText invalid_error
    k.WriteRegister 2 (-1)
  else
    let (result,fileSystem) ← SysSeek k.fileSystem position fd
    WriteRegister { k with fileSystem := fileSystem } 2 result

/-- The console loop of `SystemCallRead` from index `i` on, with `n` characters to go. -/
def readConsole (k : Kernel) (buffer : Buffer) (i : ℕ) : ℕ → Except Fault (ℕ × Buffer × Kernel)
  | 0 => return (i,buffer,k)
  | n + 1 => do
    let (c,k) ← k.GetChar
    if c = EOF then return (i,Function.update buffer i 0#8,k)
    else readConsole k (Function.update buffer i c) (i + 1) n

/-- `bs` at the start of a buffer. -/
def fill (buffer : Buffer) (bs : List Byte) : Buffer := fun j => bs.getD j (buffer j)

/-- `if (result != -1) System2User(virtAddr, result, buffer);` -/
def deliver (k : Kernel) (virtAddr result : ℤ) (buffer : Buffer) : Except Fault Kernel :=
  if result ≠ -1 then do
    let (_,k) ← k.System2User virtAddr result buffer false
    return k
  else
    return k

def SystemCallRead (k : Kernel) : Except Fault Kernel := do
  let virtAddr ← k.ReadRegister 4
  let length ← k.ReadRegister 5
  let fd ← k.ReadRegister 6
  inBounds (0 ≤ length)
  let (buffer,k) := k.alloc
  if fd = 1 ∨ fd < 0 then
    let k ← k.printText invalid_error
    k.WriteRegister 2 (-1)
  else if fd = 0 then
    let (i,buffer,k) ← k.readConsole buffer 0 length.toNat
    let (_,k) ← k.System2User virtAddr i buffer true
    k.WriteRegister 2 i
  else
    let (result,bs,fileSystem) ← SysRead k.fileSystem length fd
    let k ← deliver { k with fileSystem := fileSystem } virtAddr result (fill buffer bs)
    k.WriteRegister 2 result

/-- The console loop of `SystemCallWrite` from index `i` on, with `n` characters to go. -/
def writeConsole (k : Kernel) (buffer : Buffer) (i : ℕ) : ℕ → Kernel
  | 0 => k
  | n + 1 => writeConsole (k.PutChar (buffer i)) buffer (i + 1) n

def SystemCallWrite (k : Kernel) : Except Fault Kernel := do
  let virtAddr ← k.ReadRegister 4
  let length ← k.ReadRegister 5
  let fd ← k.ReadRegister 6
  let (buffer,k) ← k.User2System virtAddr length true
  if fd ≤ 0 then
    let k ← k.printText invalid_error
    k.WriteRegister 2 (-1)
  else if fd = 1 then
    WriteRegister (k.writeConsole buffer 0 length.toNat) 2 length
  else
    let (result,fileSystem) ← SysWrite k.fileSystem buffer length fd
    WriteRegister { k with fileSystem := fileSystem } 2 result

end Kernel
end NachOS
