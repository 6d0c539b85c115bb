import Yalnix.Lib.Ring
import Yalnix.Lib.Transition
import Yalnix.Lib.Loop
import Yalnix.Lib.RefCount
import Yalnix.Lib.Word
import Yalnix.Hardware
import Yalnix.Memory.Kernel
import Yalnix.Memory.Frames
import Yalnix.Memory.AddressSpace
import Yalnix.Process.Fork
import Yalnix.Memory.Counts
import Yalnix.Memory.Operations
import Yalnix.Process.StackCopy
import Yalnix.Process.SharePages
import Yalnix.Process.ForkSpec
import Yalnix.Process.ForkSuccess
import Yalnix.Process.ExactCounts
import Yalnix.Process.Boot
import Yalnix.Process.Exit
import Yalnix.Process.Sound
import Yalnix.Process.SoundSteps
import Yalnix.Process.Break
import Yalnix.Process.Eager
import Yalnix.Process.Threads
import Yalnix.Process.ForkIsolation
import Yalnix.Memory.Allocator
import Yalnix.Memory.Init
import Yalnix.Core.List
import Yalnix.System.Kill
import Yalnix.System.State
import Yalnix.System.Syscalls
import Yalnix.System.Culled
import Yalnix.System.Sleeping
import Yalnix.System.Alive
import Yalnix.System.Agreement
import Yalnix.System.Mutex
import Yalnix.System.CondVar
import Yalnix.System.TtyRead
import Yalnix.System.TtyWrite
import Yalnix.Core.Rings
import Yalnix.System.Adoption
import Yalnix.System.Orphans
import Yalnix.System.Lists
import Yalnix.System.Departure
import Yalnix.System.Exits
import Yalnix.System.ListSteps
import Yalnix.System.Reaping
import Yalnix.System.Candidates
import Yalnix.Lib.RoundRobin
import Yalnix.System.Groups
import Yalnix.System.RoundRobin
import Yalnix.Process.Rollback
import Yalnix.Process.ThreadStacks
import Yalnix.Process.Teardown
import Yalnix.Core.Confined
import Yalnix.System.Astray
import Yalnix.System.Resting
import Yalnix.System.ReapOne
import Yalnix.Process.Descriptors
import Yalnix.Whole.State
import Yalnix.Whole.Disposal
import Yalnix.Whole.Stores
import Yalnix.Whole.Pointers
import Yalnix.Memory.Supply
import Yalnix.Process.BrkErrors
import Yalnix.Process.Faults
import Yalnix.Process.BrkBounds
import Yalnix.Process.HeapGrowth
import Yalnix.Memory.KernelBrk
import Yalnix.Whole.Layout
import Yalnix.Whole.Mapping
import Yalnix.Whole.Loadable
import Yalnix.Whole.Image
import Yalnix.Whole.Arguments
import Yalnix.Whole.Exec
import Yalnix.Core.Sequences
import Yalnix.Sync.WaitQueue
import Yalnix.Sync.WakeOrder
import Yalnix.System.TtyBounds
import Yalnix.Sync.Resources
import Yalnix.Process.StackSplit
import Yalnix.System.Numbered
import Yalnix.System.Delay
import Yalnix.System.Parked
import Yalnix.System.SleepErrors
import Yalnix.System.Transmissions
import Yalnix.Process.ThreadSharing
import Yalnix.Process.ThreadRuns
import Yalnix.Stack.Info
import Yalnix.Stack.Owned
import Yalnix.Stack.Untouched
import Yalnix.Stack.Cloning
import Yalnix.Stack.Identity
import Yalnix.Stack.Switching
import Yalnix.Stack.Births
import Yalnix.Stack.Resume
import Yalnix.System.Turns
import Yalnix.System.Starvation
import Yalnix.System.Owners
import Yalnix.System.Successor
