import NachOS.StateMachine
import NachOS.KernelList
import NachOS.Semaphore
import NachOS.Lock
import NachOS.Condition
import NachOS.SynchList
import NachOS.Scheduler
import NachOS.Bitmap
import NachOS.OpenFile
import NachOS.FileArray
import NachOS.Directory
import NachOS.FileSystem
import NachOS.Fsck
import NachOS.Host
import NachOS.StubFileSystem
import NachOS.Descriptors
import NachOS.Machine
import NachOS.Syscall
import NachOS.ExceptionHandler
import NachOS.AddrSpace
import NachOS.StubTransfer
import NachOS.Transfer
import NachOS.Interrupt
import NachOS.InterruptLoop
import NachOS.Slots
import NachOS.DescriptorRuns
import NachOS.Calls
import NachOS.Offsets
import NachOS.OffsetModel
import NachOS.DiskCreate
import NachOS.OpenRemoved
import NachOS.TwoFileSystems
import NachOS.Noff
import NachOS.Coff
import NachOS.Load
import NachOS.Instruction
import NachOS.MipsSim
import NachOS.MipsEffect
import NachOS.MipsFaults
import NachOS.MipsRuns
import NachOS.MipsInterrupts
import NachOS.ContextSwitch
import NachOS.LoadBounds
import NachOS.SynchDevice
import NachOS.SynchDisk
import NachOS.SynchConsoleInput
import NachOS.ConsoleCalls
import NachOS.Mail
import NachOS.PostOffice
import NachOS.Network
import NachOS.LinkedCells
import NachOS.LinkedList
import NachOS.SortedList
import NachOS.HashTable
import NachOS.Decimal
import NachOS.Numbers
import NachOS.FailedCalls
import NachOS.InterruptLevels
import NachOS.DoubleWord
import NachOS.MipsArithmetic
import NachOS.SyscallReturn
import NachOS.AddressTranslation
import NachOS.HostOrder
import NachOS.MipsUnaligned
import NachOS.Clipping
import NachOS.Oversized
import NachOS.CoffBss
import NachOS.DiskLatency
import NachOS.StringCalls
import NachOS.FileNames
import NachOS.CopyProgram
import NachOS.DirectoryMap
import NachOS.CreatedNames
import NachOS.UserCopies
import NachOS.BitmapSet
import NachOS.DirectoryList
import NachOS.HashIterator
import NachOS.ConcatenateProgram
import NachOS.Volume
import NachOS.Commands
import NachOS.Isolation
import NachOS.MachineSwitch
import NachOS.NetworkTest
