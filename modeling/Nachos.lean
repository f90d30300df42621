import Nachos.Lib.Transition
import Nachos.Lib.Control
import Nachos.Threads.Semaphore
import Nachos.Threads.Equiv.Semaphore
import Nachos.Threads.Lock
import Nachos.Threads.Equiv.Lock
import Nachos.Filesys.ReadersWriters
import Nachos.Filesys.Equiv.ReadersWriters
import Nachos.Filesys.SynchDisk
import Nachos.Filesys.Equiv.SynchDisk
import Nachos.Lib.Layout
import Nachos.Lib.Prog
import Nachos.Threads.Utility
import Nachos.Filesys.Access
import Nachos.Filesys.FileHeader
import Nachos.Filesys.Directory
import Nachos.Filesys.FileSystem
import Nachos.Filesys.Equiv.OpenFile
import Nachos.Userprog.Equiv.Bitmap
import Nachos.Filesys.ArrayFile
import Nachos.Filesys.Equiv.ArrayFile
import Nachos.Filesys.Volume
import Nachos.Lib.Ownership
import Nachos.Filesys.Equiv.Volume
import Nachos.Filesys.Equiv.FileSystem
import Nachos.Filesys.Equiv.Extend
import Nachos.Filesys.Growth
import Nachos.Filesys.Equiv.Growth
import Nachos.Filesys.Equiv.GrowthLimits
import Nachos.Filesys.TwoHandles
import Nachos.Filesys.Equiv.TwoHandles
import Nachos.Filesys.ConcurrentGrowth
import Nachos.Filesys.Equiv.WriteProtocol
import Nachos.Filesys.Equiv.ConcurrentGrowth
import Nachos.Threads.GlobalThreadManager
import Nachos.Threads.Kernel
import Nachos.Threads.Equiv.Kernel
import Nachos.Threads.Equiv.Scheduler
import Nachos.Threads.Equiv.Finish
import Nachos.Threads.Equiv.KernelLocks
import Nachos.Threads.Equiv.Condition
import Nachos.Threads.Equiv.Mesa
import Nachos.Lib.BlockingQueue
import Nachos.Threads.Equiv.SynchList
import Nachos.Filesys.FileStore
import Nachos.Machine.Machine
import Nachos.Userprog.Exception
import Nachos.Userprog.Paging
import Nachos.Machine.Equiv.Machine
import Nachos.Userprog.Equiv.Exception
import Nachos.Userprog.Equiv.Paging
import Nachos.Userprog.FlatMemory
import Nachos.Userprog.Equiv.FlatMemory
import Nachos.Userprog.Lifetimes
import Nachos.Userprog.Equiv.Lifetimes
import Nachos.Userprog.AddrSpace
import Nachos.Userprog.Equiv.AddrSpace
import Nachos.Userprog.Equiv.Interference
import Nachos.Filesys.Equiv.Allocate
import Nachos.Filesys.Equiv.FailedGrowth
import Nachos.Filesys.Equiv.CreateRemove
import Nachos.Lib.Agenda
import Nachos.Machine.Interrupt
import Nachos.Machine.Equiv.Interrupt
import Nachos.Lib.Exclusion
import Nachos.Threads.Equiv.Process
import Nachos.Filesys.Equiv.Handshake
import Nachos.Threads.Equiv.Monitor
import Nachos.Machine.Console
import Nachos.Machine.Equiv.Console
import Nachos.Lib.Coupling
import Nachos.Machine.Mipssim
import Nachos.Userprog.Execution
import Nachos.Machine.Equiv.Mipssim
import Nachos.Userprog.Equiv.Execution
import Nachos.Threads.UserState
import Nachos.Threads.Equiv.UserState
import Nachos.Machine.Network
import Nachos.Network.Post
import Nachos.Network.Equiv.Post
import Nachos.Network.Equiv.PostalWorker
import Nachos.Lib.DoubleWord
import Nachos.Machine.Equiv.Mult
import Nachos.Machine.R2000
import Nachos.Machine.Equiv.R2000
import Nachos.Machine.Equiv.Robust
import Nachos.Filesys.Equiv.Directory
import Nachos.Userprog.Equiv.Outside
import Nachos.Lib.Recency
import Nachos.Machine.Equiv.Tlb
import Nachos.Userprog.Equiv.BitmapSet
import Nachos.Machine.DiskLatency
import Nachos.Machine.Equiv.DiskLatency
import Nachos.Threads.Equiv.Pids
import Nachos.Bin.Coff2noff
import Nachos.Bin.Equiv.Sections
import Nachos.Bin.Equiv.Coff2noff
import Nachos.Lib.Heap
import Nachos.Threads.List
import Nachos.Threads.Equiv.List
import Nachos.Machine.RegisterFile
import Nachos.Machine.Equiv.RegisterFile
import Nachos.Lib.I386
import Nachos.Threads.Switch
import Nachos.Threads.Equiv.Switch
import Nachos.Lib.Sync
import Nachos.Threads.Atomic
import Nachos.Threads.Equiv.Atomic
import Nachos.Threads.Equiv.Discipline
import Nachos.Threads.Equiv.ThreadTest
import Nachos.Threads.Equiv.ProducerConsumer
import Nachos.Threads.Equiv.Philosophers
