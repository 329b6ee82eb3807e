import X64SmpOs.Kernel.ApBoot
import X64SmpOs.Kernel.ApInit
import X64SmpOs.Kernel.Bitmap
import X64SmpOs.Kernel.BootLoad
import X64SmpOs.Kernel.BootPaging
import X64SmpOs.Kernel.CString
import X64SmpOs.Kernel.Console
import X64SmpOs.Kernel.Context
import X64SmpOs.Kernel.CreateRace
import X64SmpOs.Kernel.EarlySched
import X64SmpOs.Kernel.Entries
import X64SmpOs.Kernel.Exhaustion
import X64SmpOs.Kernel.Gdt64
import X64SmpOs.Kernel.Heap
import X64SmpOs.Kernel.Idt
import X64SmpOs.Kernel.Ioremap
import X64SmpOs.Kernel.IoremapFrame
import X64SmpOs.Kernel.KernelStacks
import X64SmpOs.Kernel.Keyboard
import X64SmpOs.Kernel.ListHead
import X64SmpOs.Kernel.Madt
import X64SmpOs.Kernel.Malloc
import X64SmpOs.Kernel.MallocRep
import X64SmpOs.Kernel.MallocSpec
import X64SmpOs.Kernel.Memcmp
import X64SmpOs.Kernel.MemoryMap
import X64SmpOs.Kernel.Number
import X64SmpOs.Kernel.PhyMM
import X64SmpOs.Kernel.Pick
import X64SmpOs.Kernel.ReadHd
import X64SmpOs.Kernel.Rsdp
import X64SmpOs.Kernel.Sched
import X64SmpOs.Kernel.Scroll
import X64SmpOs.Kernel.Selectors
import X64SmpOs.Kernel.Slice
import X64SmpOs.Kernel.Smp
import X64SmpOs.Kernel.SmpStack
import X64SmpOs.Kernel.SyscallEntry
import X64SmpOs.Kernel.Task
import X64SmpOs.Kernel.TaskCreate
import X64SmpOs.Kernel.TaskStart
import X64SmpOs.Kernel.Variadic
import X64SmpOs.Kernel.VideoMemory
import X64SmpOs.Kernel.Vsprintf
import X64SmpOs.Kernel.X64Heap
import X64SmpOs.Kernel.X86Heap
import X64SmpOs.Kernel.X86Lossless
import X64SmpOs.Kernel.X86Memory
import X64SmpOs.Kernel.X86Pages
import X64SmpOs.Kernel.X86Run
import X64SmpOs.Kernel.X86Sched
import X64SmpOs.Kernel.X86Sleep
import X64SmpOs.Kernel.X86Switch
import X64SmpOs.Kernel.X86Syscall
import X64SmpOs.Kernel.X86TaskExit
import X64SmpOs.Lib.Bytes
import X64SmpOs.Lib.CopyUp
import X64SmpOs.Lib.Coverage
import X64SmpOs.Lib.FirstMax
import X64SmpOs.Lib.Greedy
import X64SmpOs.Lib.Ledger
import X64SmpOs.Lib.LinkedList
import X64SmpOs.Lib.Memory
import X64SmpOs.Lib.OnesComplement
import X64SmpOs.Lib.Paging
import X64SmpOs.Lib.Pool
import X64SmpOs.Lib.PtrMap
import X64SmpOs.Lib.Ring
import X64SmpOs.Lib.Runs
import X64SmpOs.Lib.SpinLock
import X64SmpOs.Lib.Stack
import X64SmpOs.Lib.SysV
import X64SmpOs.Lib.Words
import X64SmpOs.Net.Bounds
import X64SmpOs.Net.Checksum
import X64SmpOs.Net.Datagram
import X64SmpOs.Net.Delivery
import X64SmpOs.Net.EchoServer
import X64SmpOs.Net.Endpoint
import X64SmpOs.Net.Handshake
import X64SmpOs.Net.Icmp
import X64SmpOs.Net.Inet
import X64SmpOs.Net.Monitor
import X64SmpOs.Net.Prompt
import X64SmpOs.Net.Recv
import X64SmpOs.Net.Registry
import X64SmpOs.Net.Resolve
import X64SmpOs.Net.RoundTrip
import X64SmpOs.Net.Send
import X64SmpOs.Net.Sequence
import X64SmpOs.Net.Stream
import X64SmpOs.Net.Thread
import X64SmpOs.Net.UdpChecksum
import X64SmpOs.Net.UdpPrint
import X64SmpOs.Net.Waiters
import X64SmpOs.Net.Wakeup
