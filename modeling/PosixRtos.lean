import PosixRtos.Library.Runs
import PosixRtos.Library.Rings
import PosixRtos.Library.Counting
import PosixRtos.Library.ByteMemory
import PosixRtos.Library.RingBuffer
import PosixRtos.Library.Overlay
import PosixRtos.Library.Chains
import PosixRtos.Kernel.IntrusiveList
import PosixRtos.Kernel.State
import PosixRtos.Kernel.Sched
import PosixRtos.Kernel.ReadyGroup
import PosixRtos.Kernel.Pthread
import PosixRtos.Kernel.Semaphore
import PosixRtos.Kernel.Invariant
import PosixRtos.Kernel.Moves
import PosixRtos.Kernel.Sections
import PosixRtos.Kernel.Machine
import PosixRtos.Kernel.Interference
import PosixRtos.Kernel.Schedule
import PosixRtos.Kernel.ContextSwitch
import PosixRtos.Kernel.Handler
import PosixRtos.Kernel.ClosedThreads
import PosixRtos.Kernel.Timetick
import PosixRtos.Kernel.MutexUsers
import PosixRtos.Kernel.MutexContention
import PosixRtos.Kernel.SemUsers
import PosixRtos.Kernel.TimerThread
import PosixRtos.Kernel.Removal
import PosixRtos.Kernel.Writes
import PosixRtos.Kernel.Ticks
import PosixRtos.Kernel.TimeSlices
import PosixRtos.Kernel.Sleeping
import PosixRtos.Kernel.CpuUsage
import PosixRtos.Kernel.Countdown
import PosixRtos.Kernel.UnarmedTimers
import PosixRtos.Kernel.EventQueue
import PosixRtos.Signal.Events
import PosixRtos.Signal.Owners
import PosixRtos.Signal.Loops
import PosixRtos.Signal.OneOwner
import PosixRtos.Signal.Deliveries
import PosixRtos.Signal.Accounts
import PosixRtos.Signal.World
import PosixRtos.Signal.Served
import PosixRtos.Signal.HandledOnce
import PosixRtos.Mqueue.Queue
import PosixRtos.Mqueue.Fifo
import PosixRtos.Mqueue.Calls
import PosixRtos.Mqueue.Blocking
import PosixRtos.Mqueue.Interleaved
import PosixRtos.Mqueue.Ordered
import PosixRtos.Mqueue.Receipt
import PosixRtos.Mqueue.Attributes
import PosixRtos.Mqueue.Opening
import PosixRtos.Net.Pbuf
import PosixRtos.Net.Socket
import PosixRtos.Heap.Malloc
import PosixRtos.Heap.Blocks
import PosixRtos.Heap.Release
import PosixRtos.Heap.History
import PosixRtos.Heap.Requests
import PosixRtos.Heap.Accounting
import PosixRtos.Heap.FirstFit
import PosixRtos.Heap.Cleared
import PosixRtos.Libc.Strings
import PosixRtos.Libc.Format
import PosixRtos.Libc.Grammar
import PosixRtos.Libc.Vsprintf
import PosixRtos.Libc.Itoa
import PosixRtos.Shell.Editor
import PosixRtos.Shell.Commands
import PosixRtos.Shell.Keys
import PosixRtos.Shell.History
import PosixRtos.Unistd.Objects
import PosixRtos.Unistd.Paths
import PosixRtos.Drivers.Input
import PosixRtos.Kernel.FirstFrame
import PosixRtos.Kernel.Sequences
import PosixRtos.Net.Packing
import PosixRtos.Libc.Comparisons
import PosixRtos.Libc.Rounding
import PosixRtos.Libc.FloatText
import PosixRtos.Drivers.Mmc
import PosixRtos.Net.Lifetime
import PosixRtos.Drivers.Eth
import PosixRtos.Drivers.EthRx
import PosixRtos.Fs.Volume
import PosixRtos.Fs.Window
import PosixRtos.Fs.FatTable
import PosixRtos.Fs.Clusters
import PosixRtos.Fs.Chains
import PosixRtos.Fs.File
import PosixRtos.Fs.Extents
import PosixRtos.Fs.Contents
import PosixRtos.Fs.Reading
import PosixRtos.Fs.Writing
import PosixRtos.Fs.Seeking
import PosixRtos.Fs.Truncating
import PosixRtos.Fs.Stretching
import PosixRtos.Fs.Opening
import PosixRtos.Fs.Syncing
import PosixRtos.Fs.OpenFiles
import PosixRtos.Fs.Mount
import PosixRtos.Fs.FreeCount
import PosixRtos.Fs.Durability
import PosixRtos.Fs.Directory
import PosixRtos.Fs.Listing
