import Pintos.Filesys.Filesys
import Pintos.Filesys.Contents
import Pintos.Filesys.DirectoryMap
import Pintos.Filesys.Calm
import Pintos.Threads.Lock
import Pintos.Userprog.LoadSegment
import Pintos.Userprog.UserAccess
import Pintos.Userprog.ExitStatus
import Pintos.Userprog.WaitHandshake
import Pintos.Userprog.ExecHandshake
import Pintos.Userprog.LockSafety
import Pintos.Userprog.UserNumbers
import Pintos.Userprog.ProcessCleanup
import Pintos.Userprog.ReadersWriters
import Pintos.Threads.Membership
import Pintos.Threads.Order
import Pintos.Threads.Preemption
import Pintos.Threads.Alarm
import Pintos.Threads.Mlfqs
import Pintos.Userprog.StackGrowth
import Pintos.Vm.Swap
import Pintos.Devices.Partition
import Pintos.Filesys.Reservation
import Pintos.Lib.ListRefinement
import Pintos.Lib.Hash
import Pintos.Userprog.PagedirRuns
import Pintos.Filesys.Fsutil
import Pintos.Devices.Intq
import Pintos.Filesys.Paths
import Pintos.Filesys.Eviction
import Pintos.Userprog.Descriptors
import Pintos.Filesys.Enumeration
import Pintos.Filesys.ParentRecord
import Pintos.Filesys.GrowthFrame
import Pintos.Filesys.EmptyWrite
import Pintos.Threads.PriorityRange
import Pintos.Threads.LoadAverage
import Pintos.Threads.NextWake
import Pintos.Library.MergeRuns
import Pintos.Lib.ListSort
import Pintos.Threads.SemaUp
import Pintos.Threads.Condition
import Pintos.Filesys.WriteDenial
import Pintos.Vm.ClockEviction
import Pintos.Userprog.FixedTable
import Pintos.Userprog.CommandBounds
import Pintos.Userprog.ArgumentStack
import Pintos.Lib.Arithmetic
import Pintos.Userprog.ConsoleRead
import Pintos.Lib.HashIteration
import Pintos.Lib.FormatInteger
import Pintos.Lib.Bitmap
import Pintos.Filesys.PackedFreeMap
import Pintos.Filesys.Persistence
import Pintos.Filesys.Resolution
import Pintos.Threads.Palloc
import Pintos.Threads.MallocCells
import Pintos.Threads.MallocCalls
import Pintos.Threads.MallocRuns
import Pintos.Lib.BlockMoves
import Pintos.Lib.Strtok
import Pintos.Lib.Sort
import Pintos.Devices.Ide
import Pintos.Devices.Serial
import Pintos.Devices.Vga
import Pintos.Devices.Block
import Pintos.Filesys.Cursors
import Pintos.Threads.AddressSpaces
import Pintos.Devices.Rtc
import Pintos.Threads.Interrupt
import Pintos.Lib.Random
