import CsNotes.Lib.Interleaving
import CsNotes.Lib.Storage
import CsNotes.Lib.Segment
import CsNotes.Lib.History
import CsNotes.Lib.Simulation
import CsNotes.Lib.Calls
import CsNotes.Lib.Scan
import CsNotes.Lib.Solo
import CsNotes.Lib.Places
import CsNotes.Lib.Window
import CsNotes.Lib.Probing
import CsNotes.Lib.References
import CsNotes.Lib.Refinement
import CsNotes.Lib.Progress
import CsNotes.Lib.Races
import CsNotes.Lib.TailCalls
import CsNotes.Lib.Monitor
import CsNotes.Lib.ReleaseAcquire
import CsNotes.Lib.OrderedRuns
import CsNotes.DoubleChecked.Model
import CsNotes.DoubleChecked.Correctness
import CsNotes.SplitRefCount.Model
import CsNotes.SplitRefCount.Invariant
import CsNotes.SplitRefCount.Steps
import CsNotes.SplitRefCount.Preservation
import CsNotes.SplitRefCount.Correctness
import CsNotes.SplitRefCount.Overflow
import CsNotes.SplitRefCount.Progress
import CsNotes.SplitRefCount.Races
import CsNotes.SplitRefCount.MemoryOrders
import CsNotes.SplitRefCount.OrderSteps
import CsNotes.SplitRefCount.OrderRaces
import CsNotes.ThreadsafeQueue.Model
import CsNotes.ThreadsafeQueue.Invariant
import CsNotes.ThreadsafeQueue.Steps
import CsNotes.ThreadsafeQueue.Preservation
import CsNotes.ThreadsafeQueue.Correctness
import CsNotes.ThreadsafeQueue.Wakeup
import CsNotes.ThreadsafeQueue.Exceptions
import CsNotes.ThreadsafeQueue.Accounts
import CsNotes.ThreadsafeQueue.ExceptionSafety
import CsNotes.ThreadsafeQueue.Races
import CsNotes.ThreadsafeQueue.Deadlock
import CsNotes.HazardPointer.Model
import CsNotes.HazardPointer.Invariant
import CsNotes.HazardPointer.Steps
import CsNotes.HazardPointer.Preservation
import CsNotes.HazardPointer.Correctness
import CsNotes.HazardPointer.Slots
import CsNotes.HazardPointer.Progress
import CsNotes.HazardPointer.Races
import CsNotes.LockfreeStack.Model
import CsNotes.LockfreeStack.MemoryLeak
import CsNotes.LockfreeStack.References
import CsNotes.LockfreeStack.Refinement
import CsNotes.LockfreeStack.Correctness
import CsNotes.LockfreeStack.Progress
import CsNotes.LockfreeStack.Races
import CsNotes.LockfreeStack.MemoryOrders
import CsNotes.LockfreeQueue.Model
import CsNotes.LockfreeQueue.Invariant
import CsNotes.LockfreeQueue.Steps
import CsNotes.LockfreeQueue.Preservation
import CsNotes.LockfreeQueue.Correctness
import CsNotes.LockfreeQueue.Progress
import CsNotes.LockfreeQueue.LockFreedom
import CsNotes.SpscQueue.Model
import CsNotes.SpscQueue.Invariant
import CsNotes.SpscQueue.Preservation
import CsNotes.SpscQueue.Correctness
import CsNotes.SpscQueue.Races
import CsNotes.ThreadPool.Model
import CsNotes.ThreadPool.Destruction
import CsNotes.ThreadPool.Whereabouts
import CsNotes.ThreadPool.Pools
import CsNotes.ThreadPool.Subscripts
import CsNotes.ThreadPool.Stealing
import CsNotes.ThreadPool.WorkStealingQueue
import CsNotes.TypeErasure.Model
import CsNotes.TypeErasure.SmallBuffer
import CsNotes.TypeErasure.ManualDispatch
import CsNotes.TypeErasure.Mapping
import CsNotes.TypeErasure.Dispatch
import CsNotes.TypeErasure.Arguments
import CsNotes.TypeErasure.References
import CsNotes.TypeErasure.ConstRef
import CsNotes.Allocator.Model
import CsNotes.Allocator.Counters
import CsNotes.BankAccount.Model
import CsNotes.BankAccount.Outcomes
import CsNotes.Coroutine.Model
import CsNotes.Coroutine.Steps
import CsNotes.Coroutine.Transfer
import CsNotes.Coroutine.Stack
import CsNotes.Coroutine.Tasks
import CsNotes.Coroutine.Ownership
import CsNotes.Coroutine.Chains
import CsNotes.Coroutine.Answers
import CsNotes.Coroutine.Balance
import CsNotes.Coroutine.Unwinding
import CsNotes.Coroutine.Lifetimes
import CsNotes.Coroutine.TearDown
