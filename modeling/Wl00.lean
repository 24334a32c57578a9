import Wl00.Lib.Bytes
import Wl00.Lib.Footprint
import Wl00.Lib.Guarded
import Wl00.Lib.Move
import Wl00.Lib.Numeral
import Wl00.Lib.Rv32
import Wl00.Lib.Transition
import Wl00.Lib.Wp
import Wl00.Sync.Printf
import Wl00.Sync.Spinlock
import Wl00.Sched.Basic
import Wl00.Sched.Cpus
import Wl00.Sched.Exclusive
import Wl00.Sched.Family
import Wl00.Sched.Fine
import Wl00.Sched.Handler
import Wl00.Sched.History
import Wl00.Sched.Interrupts
import Wl00.Sched.Invariant
import Wl00.Sched.Lifecycle
import Wl00.Sched.Order
import Wl00.Sched.Pids
import Wl00.Sched.Points
import Wl00.Sched.Preserve
import Wl00.Sched.Progress
import Wl00.Sched.Reap
import Wl00.Sched.Restored
import Wl00.Sched.Rooted
import Wl00.Sched.RoundRobin
import Wl00.Sched.Scan
import Wl00.Sched.Sleepers
import Wl00.Sched.Solo
import Wl00.Sched.Steps
import Wl00.Sched.Trace
import Wl00.Sched.Tree
import Wl00.Sched.Unique
import Wl00.Sched.Wakeup
import Wl00.Sched.Wrap
import Wl00.Sched.Zombie
import Wl00.Vm.Exec
import Wl00.Vm.Kernel
import Wl00.Vm.Load
import Wl00.Vm.Memory
import Wl00.Vm.Proc
import Wl00.Vm.Reads
import Wl00.Vm.Table
import Wl00.Vm.Write
import Wl00.Space.Access
import Wl00.Space.Agree
import Wl00.Space.Alloc
import Wl00.Space.Boot
import Wl00.Space.Bytewise
import Wl00.Space.Calls
import Wl00.Space.Copy
import Wl00.Space.Elf
import Wl00.Space.Exec
import Wl00.Space.Exit
import Wl00.Space.Fork
import Wl00.Space.Gather
import Wl00.Space.Grow
import Wl00.Space.Kernel
import Wl00.Space.Load
import Wl00.Space.Lookup
import Wl00.Space.Ownership
import Wl00.Space.Pool
import Wl00.Space.Push
import Wl00.Space.Shared
import Wl00.Space.Slots
import Wl00.Space.Stack
import Wl00.Space.Table
import Wl00.Space.User
import Wl00.Space.Walk
import Wl00.Space.World
import Wl00.Space.Write
import Wl00.Clib.Memmove
import Wl00.Clib.Print
import Wl00.Trap.Asm
import Wl00.Trap.Kernel
import Wl00.Trap.Resume
import Wl00.Trap.Serve
import Wl00.Trap.Thread
import Wl00.Trap.Timer
import Wl00.Trap.User
import Wl00.Boot.Complete
import Wl00.Boot.Join
import Wl00.Boot.Main
import Wl00.Boot.Mask
import Wl00.Boot.Refine
import Wl00.Boot.Statements
import Wl00.Private.Machine
import Wl00.Private.View
import Wl00.Private.Calls
import Wl00.Private.Exec
import Wl00.Private.Refine
