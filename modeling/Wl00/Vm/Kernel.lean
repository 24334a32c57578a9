import Wl00.Lib.Transition
import Wl00.Vm.Exec

/-!
# The kernel as a state machine

Boot, and then one operation after another: the system calls and the scheduler's
actions that change memory or a slot, each run to its end, and what user code does
in between.
-/

namespace Wl00.Vm

open Prog
open Sched (Slot Chan)

variable {L : Layout}

/-- `NCPU` of `defs.h` and `boot_asm.S` -/
abbrev NCPU : Nat := 4

/-- A hart that has a `struct cpu`. -/
abbrev Hart := Fin NCPU

/-- A slot as `.bss` leaves it. -/
def Proc.zero : Proc where
  pid := 0
  state := .unused
  name := fun _ => 0
  pt := 0
  kstack := 0
  sz := 0
  tf := 0
  xstate := 0
  chan := none
  context := ⟨0, 0⟩
  parent := none

/-- The kernel when `main` begins on hart 0, in a memory that holds `bytes`. -/
def Kernel.start (L : Layout) (bytes : Bytes) : Kernel L where
  mem := .blank L bytes
  procs := fun _ => .zero
  currPid := 1
  kptable := 0

/-- `main` on hart 0, up to `scheduler` -/
def boot (progs : Programs) : KernelM L Unit := do
  onMem initBitmap
  let kpt ← onMem kptableMake
  modify fun k => { k with kptable := kpt }
  modify fun k => { k with procs := fun i => { k.procs i with kstack := 0, state := .unused } }
  initUserproc progs

/-- What happens between two states. -/
inductive Op where
  | procalloc
  | fork (p : Slot)
  | exec (p : Slot)
  | exit (p : Slot) (status : Int)
  | wait (p : Slot) (addr : UInt32)
  /-- The scheduler releases an orphan zombie. -/
  | reap (q : Slot)
  /-- The scheduler picks a process; one that slept goes on in `sleep`. -/
  | dispatch (p : Slot)
  | yield (p : Slot)
  /-- `sys_sleep` blocks. -/
  | sleep (p : Slot)
  /-- `clockintr` wakes the sleepers. -/
  | tick
  /-- User code has run and trapped, or a system call has returned: `epc` and the
  registers in the trapframe are these. -/
  | trap (p : Slot) (epc : Nat) (regs : Nat → Nat)
  /-- User code stores a byte. -/
  | poke (p : Slot) (va : UInt32) (b : UInt8)

/-- The process that calls the kernel or is in user mode is RUNNING, what is reaped is a
zombie without a parent, and the scheduler picks a READY process. -/
def Op.enabled (k : Kernel L) : Op → Prop
  | .procalloc | .tick => True
  | .fork p | .exec p | .exit p _ | .wait p _ | .yield p | .sleep p | .trap p _ _ | .poke p _ _ =>
      (k.procs p).state = .running
  | .reap q => (k.procs q).state = .zombie ∧ (k.procs q).parent = none
  | .dispatch p => (k.procs p).state = .ready

/-- Store the registers `regs 1`, ..., `regs n` in the trapframe at `tf`. -/
def saveRegs (tf : Nat) (regs : Nat → Nat) : Nat → MemM L Unit
  | 0 => pure ()
  | n + 1 => do
      saveRegs tf regs n
      store (tf + regOff (n + 1)) (regs (n + 1))

/-- User code stores a byte, if its page allows it. -/
def poke (pt va : Nat) (b : UInt8) : MemM L Unit := do
  let pa ← findUserPa pt va PTE_W
  if pa = 0 then pure () else memmoveFrom pa [b]

def Op.run (progs : Programs) : Op → KernelM L Unit
  | .procalloc => do
      let _ ← Vm.procalloc
  | .fork p => do
      let _ ← Vm.fork p
  | .exec p => do
      let _ ← sysExec progs p
  | .exit p status => kexit p status
  | .wait p addr => do
      let _ ← Vm.wait p addr.toNat
  | .reap q => releaseproc q
  | .dispatch p => modifyProc p fun pp => { pp with state := .running, chan := none }
  | .yield p => modifyProc p fun pp => { pp with state := .ready }
  | .sleep p => modifyProc p fun pp => { pp with chan := some .ticks, state := .waiting }
  | .tick => wakeup (some .ticks)
  | .trap p epc regs => do
      let pp ← getProc p
      onMem (store (pp.tf + epcOff) epc)
      onMem (saveRegs pp.tf regs 31)
  | .poke p va b => do
      let pp ← getProc p
      onMem (Vm.poke pp.pt va.toNat b)

/-- The kernel from the end of boot on. -/
def system (L : Layout) (progs : Programs) : Lts (Kernel L) Op where
  init k := ∃ bytes, boot progs (.start L bytes) = .ok ((), k)
  step k op k' := op.enabled k ∧ op.run progs k = .ok ((), k')

end Wl00.Vm
