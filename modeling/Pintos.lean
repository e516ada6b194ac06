import Pintos.Library.Routine
import Pintos.Library.LockProgram
import Pintos.Library.Coupling
import Pintos.Library.Memory
import Pintos.Library.SlotTable
import Pintos.Library.Serial
import Pintos.Devices.Block
import Pintos.Devices.Intq
import Pintos.Devices.Timer
import Pintos.Filesys.Cache
import Pintos.Filesys.CacheSpec
import Pintos.Filesys.CacheRefinement
import Pintos.Filesys.CacheThreads
import Pintos.Filesys.CacheDeadlock
import Pintos.Filesys.CacheReaders
import Pintos.Filesys.InodeDisk
import Pintos.Lib.Arithmetic
import Pintos.Lib.Bitmap
import Pintos.Lib.Hash
import Pintos.Library.Representatives
import Pintos.Lib.HashRuns
import Pintos.Lib.Stdio
import Pintos.Lib.String
import Pintos.Lib.Ustar
import Pintos.Filesys.Inode
import Pintos.Filesys.FreeMap
import Pintos.Filesys.FlatFs
import Pintos.Filesys.Index
import Pintos.Filesys.Growth
import Pintos.Filesys.Lookup
import Pintos.Filesys.FileData
import Pintos.Filesys.Extension
import Pintos.Filesys.Directory
import Pintos.Filesys.DirectoryMap
import Pintos.Filesys.DirectoryThreads
import Pintos.Filesys.DirectoryAtomic
import Pintos.Filesys.WorkingDir
import Pintos.Vm.Pagedir
import Pintos.Vm.Page
import Pintos.Vm.PageSpec
import Pintos.Vm.PageContents
import Pintos.Vm.WriteBack
import Pintos.Vm.FrameTable
import Pintos.Vm.Permission
import Pintos.Vm.Mmap
import Pintos.Vm.Lifecycle
import Pintos.Vm.Effects
import Pintos.Vm.FrameOps
import Pintos.Vm.FrameThreads
import Pintos.Vm.OwnerPagedir
import Pintos.Vm.FrameExclusive
import Pintos.Vm.Munmap
import Pintos.Vm.SwapRoundTrip
import Pintos.Vm.SwapSlots
import Pintos.Vm.EvictionRace
import Pintos.Vm.Sound
import Pintos.Vm.TwoRuns
import Pintos.Vm.Isolation
import Pintos.Userprog.PagedirMap
import Pintos.Userprog.PagedirWords
import Pintos.Userprog.Process
import Pintos.Userprog.ProcessTree
import Pintos.Userprog.Exec
import Pintos.Userprog.ProcessExecute
import Pintos.Userprog.SetupStack
import Pintos.Filesys.Path
import Pintos.Filesys.Handles
import Pintos.Library.Weakest
import Pintos.Filesys.HandleCounts
import Pintos.Filesys.HandlePaths
import Pintos.Filesys.PathLookup
import Pintos.Threads.Kernel
import Pintos.Threads.Scheduler
import Pintos.Threads.Semaphores
import Pintos.Threads.Conditions
import Pintos.Vm.MmapThreads
import Pintos.Threads.Malloc
import Pintos.Filesys.ExtensionReads
import Pintos.Filesys.OpenFiles
import Pintos.Filesys.Descriptors
import Pintos.Filesys.DescriptorRuns
import Pintos.Filesys.CacheSound
import Pintos.Filesys.CacheVictim
import Pintos.Filesys.InodeFrame
import Pintos.Filesys.RunningFiles
import Pintos.Filesys.ReadBuffer
import Pintos.Filesys.DirLock
import Pintos.Filesys.FreeMapSpec
import Pintos.Filesys.IndexRelease
import Pintos.Filesys.GrowLoop
import Pintos.Filesys.WriteSafety
import Pintos.Vm.SelectFrame
import Pintos.Vm.StackGrowth
import Pintos.Vm.SupplHash
import Pintos.Vm.ValidAddress
import Pintos.Userprog.SyscallArgs
import Pintos.Vm.EvictedBytes
import Pintos.Vm.CheckEffects
import Pintos.Filesys.Fsutil
import Pintos.Threads.MallocBytes
import Pintos.Library.Ownership
import Pintos.Threads.Palloc
import Pintos.Threads.PageGroups
import Pintos.Threads.NarrowBridge
import Pintos.Lib.KernelList
import Pintos.Lib.ListOps
import Pintos.Lib.ListRuns
import Pintos.Lib.StringOps
import Pintos.Lib.Random
import Pintos.Lib.StringScan
import Pintos.Lib.BitmapWords
import Pintos.Lib.Strtok
import Pintos.Filesys.PathTokens
import Pintos.Devices.Partition
import Pintos.Lib.ArraySort
import Pintos.Userprog.Segment
import Pintos.Vm.MapLookups
import Pintos.Lib.FormatInteger
import Pintos.Lib.Atoi
import Pintos.Library.Grouping
import Pintos.Threads.RoundRobin
import Pintos.Devices.Kbd
