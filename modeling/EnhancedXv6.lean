import EnhancedXv6.Transition
import EnhancedXv6.ProcTable
import EnhancedXv6.Scheduler
import EnhancedXv6.Threads
import EnhancedXv6.Frames
import EnhancedXv6.TableSpecs
import EnhancedXv6.StepCases
import EnhancedXv6.Lifecycle
import EnhancedXv6.LifecycleSteps
import EnhancedXv6.Parked
import EnhancedXv6.Effects
import EnhancedXv6.Pids
import EnhancedXv6.Births
import EnhancedXv6.Fairness
import EnhancedXv6.Queues
import EnhancedXv6.QueueOps
import EnhancedXv6.Mlfq
import EnhancedXv6.StateChanges
import EnhancedXv6.Writes
import EnhancedXv6.Priorities
import EnhancedXv6.QueueOrder
import EnhancedXv6.PidWrap
import EnhancedXv6.Selection
import EnhancedXv6.WaitTimes
import EnhancedXv6.Levels
import EnhancedXv6.Bypass
import EnhancedXv6.Oldest
import EnhancedXv6.Accounts
import EnhancedXv6.Families
import EnhancedXv6.Reaping
import EnhancedXv6.Spinlocks
import EnhancedXv6.LockOrder
import EnhancedXv6.Pipes
import EnhancedXv6.PipeWakeups
import EnhancedXv6.PipeFifo
import EnhancedXv6.Log
import EnhancedXv6.LogSpace
import EnhancedXv6.LogProtocol
import EnhancedXv6.Bcache
import EnhancedXv6.BcacheView
import EnhancedXv6.Circular
import EnhancedXv6.BcacheLinks
import EnhancedXv6.Fifo
import EnhancedXv6.Ide
import EnhancedXv6.IdeRefines
import EnhancedXv6.LogDisk
import EnhancedXv6.LogCache
import EnhancedXv6.LogOps
import EnhancedXv6.LogSafe
import EnhancedXv6.LogHistory
import EnhancedXv6.CrashRecovery
import EnhancedXv6.Command
import EnhancedXv6.Interleaving
import EnhancedXv6.Fs
import EnhancedXv6.FsCalls
import EnhancedXv6.FsTree
import EnhancedXv6.FsEdits
import EnhancedXv6.FsRmdir
import EnhancedXv6.FsLinks
import EnhancedXv6.FsCache
import EnhancedXv6.FsHands
import EnhancedXv6.FsBalance
import EnhancedXv6.FsReferences
import EnhancedXv6.Bytes
import EnhancedXv6.Ownership
import EnhancedXv6.Blocks
import EnhancedXv6.BlockRefs
import EnhancedXv6.BlockSpecs
import EnhancedXv6.FileBytes
import EnhancedXv6.BlockRuns
import EnhancedXv6.Starvation
import EnhancedXv6.Footprint
import EnhancedXv6.FileWrite
import EnhancedXv6.SharedOffset
import EnhancedXv6.Console
import EnhancedXv6.LineDiscipline
import EnhancedXv6.UmallocRuns
import EnhancedXv6.Growproc
import EnhancedXv6.Copyout
import EnhancedXv6.Fork
import EnhancedXv6.ExecArgs
import EnhancedXv6.SetPriority
import EnhancedXv6.Dispatches
import EnhancedXv6.Syscalls
import EnhancedXv6.Grep
import EnhancedXv6.Paths
import EnhancedXv6.ShellWords
import EnhancedXv6.DirBlocks
import EnhancedXv6.MkfsKernel
import EnhancedXv6.Memmove
import EnhancedXv6.UserPages
import EnhancedXv6.UmallocWords
import EnhancedXv6.FreeList
import EnhancedXv6.Isolation
import EnhancedXv6.LockWords
