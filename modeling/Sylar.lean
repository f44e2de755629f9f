import Sylar.Lib.Transition
import Sylar.Lib.Fairness
import Sylar.Lib.Counting
import Sylar.Task
import Sylar.Scheduler.Machine
import Sylar.Scheduler.Tasks
import Sylar.Ledger
import Sylar.Scheduler.Counters
import Sylar.Scheduler.Wakeup
import Sylar.Scheduler.Shutdown
import Sylar.Scheduler.Progress
import Sylar.Lib.StdVector
import Sylar.Scheduler.Iterator
import Sylar.Scheduler.Fetch
import Sylar.Fiber.Machine
import Sylar.Fiber.Movers
import Sylar.Lib.Ownership
import Sylar.Fiber.Invariant
import Sylar.Fiber.Steps
import Sylar.Fiber.Resume
import Sylar.Fiber.MainFunc
import Sylar.Fiber.Execution
import Sylar.Lib.RefCount
import Sylar.Fiber.References
import Sylar.Fiber.Lifetime
import Sylar.Hook.Close
import Sylar.Scheduler.Stop
import Sylar.Scheduler.Returns
import Sylar.Fiber.Stopping
import Sylar.Thread.Semaphore
import Sylar.Thread.Start
import Sylar.Thread.Progress
import Sylar.Lib.Mutex
import Sylar.Lib.Program
import Sylar.Lib.Atomic
import Sylar.Hook.Calls
import Sylar.Hook.World
import Sylar.Hook.Control
import Sylar.Hook.Nonblock
import Sylar.Hook.Disabled
import Sylar.Hook.Registry
import Sylar.Hook.Waits
import Sylar.Hook.Blocking
import Sylar.Hook.UserFlags
import Sylar.Hook.Failures
import Sylar.Hook.Passing
import Sylar.Hook.Durations
import Sylar.Hook.Connect
import Sylar.Hook.Races
import Sylar.Hook.Atomic
import Sylar.Thread.Current
import Sylar.Thread.Names
import Sylar.Thread.Join
import Sylar.Fiber.Context
import Sylar.Fiber.Isolation
import Sylar.Fiber.Life
import Sylar.Fiber.Leaks
import Sylar.Fiber.Caller
import Sylar.Fiber.Workers
import Sylar.Fiber.Handled
import Sylar.Fiber.Locks
import Sylar.Fiber.Ids
import Sylar.Owner.Machine
import Sylar.Owner.Pointers
import Sylar.Owner.Restore
import Sylar.Owner.Lifecycle
