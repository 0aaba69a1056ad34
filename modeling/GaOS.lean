import GaOS.Core.LTS
import GaOS.Core.Loop
import GaOS.Core.DList
import GaOS.Core.Ring
import GaOS.Core.Tiling
import GaOS.Core.UpdateFirst
import GaOS.Core.Buffer
import GaOS.L0Libc.Memmove
import GaOS.L0Libc.NumToString
import GaOS.L0Libc.Printk
import GaOS.L1Memory.PageExclusive
import GaOS.L1Memory.PageSource
import GaOS.L2Paging.MapRange
import GaOS.L3Heap.HeapInv
import GaOS.L4Sched.Fairness
import GaOS.L4Sched.Registers
import GaOS.L5Process.Fork
import GaOS.Bugs.BitmapTail
import GaOS.L1Memory.PageAccount
import GaOS.Bugs.FreedPages
import GaOS.L3Heap.LiveHeap
import GaOS.L6Syscall.FileTable
import GaOS.Bugs.FdGrowth
import GaOS.Bugs.FdCount
import GaOS.L4Sched.Creation
import GaOS.Bugs.KernelTask
import GaOS.L6Syscall.UserMemory
import GaOS.L4Files.Ustar
import GaOS.L2Paging.Interior
import GaOS.L5Process.Elf
import GaOS.L5Process.ElfLoad
import GaOS.L5Process.KernelHalf
import GaOS.L5Process.ElfImage
import GaOS.Bugs.ElfImage
import GaOS.Bugs.ElfKernelHalf
import GaOS.L4Files.Devices
import GaOS.L4Files.Nodes
import GaOS.L4Files.NodeSpec
import GaOS.L6Syscall.NodeTable
import GaOS.Bugs.FramebufferBounds
import GaOS.Bugs.UstarRead
import GaOS.Core.CString
import GaOS.L4Files.Archive
import GaOS.Bugs.MountOrder
import GaOS.L4Files.Paths
import GaOS.L4Files.DeviceCreate
import GaOS.Bugs.OpenLeak
import GaOS.L4Files.DeviceRuns
import GaOS.L4Files.DeviceTree
import GaOS.L4Files.DevicePaths
import GaOS.L4Files.DeviceEnum
import GaOS.Bugs.PathBuffer
import GaOS.L4Files.BootModules
import GaOS.L4Files.Shapes
import GaOS.L4Files.GrownPaths
import GaOS.Bugs.DeviceNames
import GaOS.L3Heap.Names
import GaOS.Bugs.StoredNames
import GaOS.L6Syscall.Waitpid
import GaOS.L2Paging.Shared
import GaOS.L5Process.Agreement
import GaOS.Bugs.KernelAgreement
import GaOS.L6Syscall.ForkFiles
import GaOS.Bugs.ForkFds
import GaOS.Bugs.ArchivePrefix
import GaOS.L2Paging.Permissions
import GaOS.L4Sched.Context
import GaOS.L4Sched.PageFault
import GaOS.Bugs.StackGrowth
import GaOS.Bugs.ForkStack
import GaOS.Bugs.RangeAccess
import GaOS.Bugs.DirectMap
import GaOS.L2Paging.Bootstrap
import GaOS.L3Heap.BootHeap
import GaOS.Bugs.HeapOverlap
import GaOS.Bugs.InitrdChoice
import GaOS.Bugs.SeekTarget
import GaOS.Bugs.LseekCallback
import GaOS.L6Syscall.Descriptors
import GaOS.L6Syscall.TaskLookup
import GaOS.L4Files.Console
import GaOS.Bugs.ConsoleRow
import GaOS.Bugs.PathTerminator
import GaOS.Bugs.HeapWrap
import GaOS.Bugs.ArchiveWalk
import GaOS.L1Memory.PageMemory
import GaOS.L4Sched.Clock
import GaOS.Bugs.ClockDrift
import GaOS.L4Files.Sanatise
import GaOS.Bugs.SanatiseIndex
import GaOS.L4Files.PathParts
import GaOS.Bugs.PathSplit
import GaOS.L4Sched.SmpProgress
import GaOS.Core.WordStack
import GaOS.L4Sched.Entry
import GaOS.L4Sched.Preemption
import GaOS.L6Syscall.SyscallPath
