import Mathlib.Algebra.Group.Int.Defs
import Mathlib.Algebra.Group.Nat.Defs
import Wl00.Sync.Spinlock

/-!
# Processes and harts: the model

The model of the process life cycle of `kernel/proc.c` (with `clockintr` and
the two trap handlers of `trap.c` and `sys_sleep` of `syscall.c`), at the grain
of its locks: each acquisition, each release and each access to a slot's fields
made without that slot's lock is a step of its own, and the steps of any number
of harts interleave freely.

A hart executes on the stack of its own scheduler or on the kernel stack of a
process; `State.cur` says which, and `swtch` is what changes it.  The thread of
control that belongs to a stack is a program point `Pc`.  A point carries the
local variables of the function it is in and, where the source makes a call, the
point to go on with when the call returns, so that a process preempted in the
middle of `fork` is the point of `fork` under the frames of the trap handler.

What memory management does is left out here: a stretch of `kalloc`, `kfree`
and printing is `Pc.mm`, any number of sections of `mem_lock` and `print_lock`,
and whether an allocation or a copy to user memory succeeds is a choice.
-/

namespace Wl00.Sched

/-- `NPROC` of `defs.h`. -/
abbrev NPROC : Nat := 32

/-- A slot of `proctable`. -/
abbrev Slot := Fin NPROC

/-- `enum procstate` -/
inductive ProcState where
  | unused | new | ready | running | waiting | zombie
  deriving DecidableEq, Repr

/-- What a process may sleep on: a slot (its own, in `wait`) or `&ticks`. -/
inductive Chan where
  | proc (p : Slot)
  | ticks
  deriving DecidableEq, Repr

/-- How a slot got its parent, with the generation of the parent's slot at that
moment.  A history variable. -/
inductive Origin where
  | none
  | forked (parent : Slot) (gen : Nat)
  | handed (reaper : Slot) (gen : Nat)
  deriving DecidableEq, Repr

/-- The fields of `struct proc` that scheduling reads and writes.  `gen` and
`origin` are history variables: `gen` counts the processes the slot has been
released from. -/
structure Proc where
  pid : Int
  state : ProcState
  chan : Option Chan
  parent : Option Slot
  xstate : Int
  gen : Nat
  origin : Origin
  deriving DecidableEq

/-- The locks the modelled functions take. -/
inductive Lock where
  | wait | pid | ticks | mem | print
  | proc (p : Slot)
  deriving DecidableEq, Repr

/-- Who calls `releaseproc`. -/
inductive Releaser where
  /-- `wait` of the process in slot `p` -/
  | wait (p : Slot)
  /-- `kexit` of the process in slot `p` -/
  | kexit (p : Slot)
  /-- `scheduler` -/
  | sched
  /-- `procalloc` or `fork` of the process in slot `p`, giving up -/
  | fail (p : Slot)
  deriving DecidableEq, Repr

/-- The system calls whose result the model keeps. -/
inductive Sys where
  | fork | wait | sleep | other
  deriving DecidableEq, Repr

/-- A program point.  `p` is the `struct proc *p = myproc()` of the function,
`i` the slot a loop is at or works on, `k` the point to go on with. -/
inductive Pc where
  /-- `lock(l)` -/
  | acq (l : Lock) (k : Pc)
  /-- `unlock(l)` -/
  | rel (l : Lock) (k : Pc)
  /-- Any number of allocations, frees and messages. -/
  | mm (k : Pc)
  /-- In user mode. -/
  | user
  /-- `utrapret` -/
  | utrapret
  /-- `syscall` stores the result `v`. -/
  | sysret (c : Sys) (p : Slot) (v : Int)
  /-- `clockintr`, `tickslock` held: `ticks++` -/
  | clockTick (k : Pc)
  /-- `s_trap_handle`: `p != NULL && p->state == RUNNING` -/
  | trapYield (p : Option Slot) (k : Pc)
  /-- `s_trap_handle` returns to the code it interrupted. -/
  | sret (k : Pc)
  /-- `wakeup(c)`: the head of the loop -/
  | wakeup (c : Option Chan) (i : Nat) (k : Pc)
  /-- `wakeup(c)`: `q->lock` held -/
  | wakeCheck (c : Option Chan) (i : Slot) (k : Pc)
  /-- `sched`: the checks and `swtch` -/
  | sched (k : Pc)
  /-- `sched`: `swtch` has returned -/
  | schedRet (intena : Bool) (k : Pc)
  /-- `yield`: `p->state = READY` -/
  | yieldSet (p : Slot) (k : Pc)
  /-- `sleep`: `p->chan = chan; p->state = WAITING` -/
  | sleepSet (p : Slot) (c : Chan) (lk : Lock) (k : Pc)
  /-- `sleep`: `p->chan = NULL` -/
  | sleepWake (p : Slot) (lk : Lock) (k : Pc)
  /-- `forkret`, on the kernel stack of `p` -/
  | forkret (p : Slot)
  /-- `procalloc`: the head of the loop -/
  | paScan (p : Slot) (i : Nat)
  /-- `procalloc`: the slot's lock held -/
  | paCheck (p i : Slot)
  /-- `allocpid`: `pid_lock` held -/
  | paPid (p i : Slot)
  /-- `procalloc`: `p->pid = allocpid()` -/
  | paSetPid (p i : Slot) (v : Int)
  /-- `procalloc`: kernel stack, trapframe and page table, then the context -/
  | paAlloc (p i : Slot)
  /-- `fork`: `uvmcopy` -/
  | forkCopy (p i : Slot)
  /-- `fork`: `int pid = np->pid` -/
  | forkPid (p i : Slot)
  /-- `fork`: `wait_lock` and `np->lock` held -/
  | forkPublish (p i : Slot) (v : Int)
  /-- Inside `releaseproc(q)` called by `r`. -/
  | release (q : Slot) (r : Releaser) (k : Pc)
  /-- `wait`: the head of the loop; reads `q->parent` -/
  | waitScan (p : Slot) (addr : Nat) (i : Nat) (haveChildren : Bool)
  /-- `wait`: `q->lock` held -/
  | waitCheck (p : Slot) (addr : Nat) (i : Slot)
  /-- `wait`: `copyout` of the status -/
  | waitCopyout (p : Slot) (addr : Nat) (i : Slot) (pid xstate : Int)
  /-- `kexit`: the reaper scan; reads `q->pid` -/
  | exitScan (p : Slot) (status : Int) (i : Nat)
  /-- `kexit`: the reaper scan; reads `q->state` -/
  | exitScanState (p : Slot) (status : Int) (i : Slot)
  /-- `kexit`: the loop over the children; reads `q->parent` -/
  | exitChildren (p : Slot) (status : Int) (reaper : Option Slot) (i : Nat) (gave : Bool)
  /-- `kexit`: a child's lock held -/
  | exitHand (p : Slot) (status : Int) (reaper : Option Slot) (i : Slot) (gave : Bool)
  /-- `kexit`: `if (p->parent)` -/
  | exitParent (p : Slot) (status : Int)
  /-- `kexit`: the argument of `wakeup(p->parent)` -/
  | exitParentArg (p : Slot) (status : Int)
  /-- `kexit`: `wait_lock` and `p->lock` held -/
  | exitZombie (p : Slot) (status : Int)
  /-- `kexit`: the final `sched` -/
  | exitSched (p : Slot)
  /-- `kexit`: after the final `sched` -/
  | dead (p : Slot)
  /-- `sys_sleep`: `start = ticks` -/
  | sleepStart (p : Slot) (n : Nat)
  /-- `sys_sleep`: the loop test -/
  | sleepLoop (p : Slot) (n start : Nat)
  /-- `scheduler`: `interrupt_on` -/
  | schedOn
  /-- `scheduler`: `interrupt_off` -/
  | schedOff
  /-- `scheduler`: the head of the loop -/
  | schedScan (i : Nat)
  /-- `scheduler`: `p->lock` held -/
  | schedCheck (i : Slot)
  /-- `scheduler`: `swtch` to the process -/
  | schedSwtch (i : Slot)
  /-- `scheduler`: `swtch` has returned -/
  | schedBack (i : Slot)
  /-- `scheduler`: is it an orphan zombie? -/
  | schedReap (i : Slot)
  /-- In the endless loop of `panic`. -/
  | panic
  deriving DecidableEq

/-- The whole machine, with `n` harts.  `locks l` is the hart recorded in a
taken lock; `tpc p` is the thread on the kernel stack of slot `p`, and the
context saved in the slot when no hart executes it; `spc h` likewise for the
scheduler of hart `h`. -/
structure State (n : Nat) where
  procs : Slot → Proc
  locks : Lock → Option (Fin n)
  cpus : Fin n → Spinlock.Cpu
  cproc : Fin n → Option Slot
  cur : Fin n → Option Slot
  tpc : Slot → Pc
  spc : Fin n → Pc
  currPid : Int
  ticks : Nat

/-- How a step with more than one outcome goes on. -/
inductive Choice where
  /-- The only way there is, or success. -/
  | go
  /-- The allocation, the copy or the copyout fails. -/
  | fail
  /-- One more section of `mem_lock`. -/
  | mem
  /-- One more section of `print_lock`. -/
  | print
  /-- A timer interrupt. -/
  | timer
  /-- User code calls `fork`, `wait`, `exit`, `sleep` or any other system call
  (with this result), or faults. -/
  | fork
  | wait (addr : Nat)
  | exit (status : Int)
  | sleep (ticks : Int)
  | other (v : Int)
  | fault
  deriving DecidableEq

variable {n : Nat}

namespace State

/-- The point hart `h` is at. -/
def pcOf (s : State n) (h : Fin n) : Pc :=
  match s.cur h with
  | none => s.spc h
  | some p => s.tpc p

/-- Hart `h` goes on to `k` on the stack it is on. -/
def setPc (s : State n) (h : Fin n) (k : Pc) : State n :=
  match s.cur h with
  | none => { s with spc := Function.update s.spc h k }
  | some p => { s with tpc := Function.update s.tpc p k }

def setProc (s : State n) (i : Slot) (q : Proc) : State n :=
  { s with procs := Function.update s.procs i q }

def setCpu (s : State n) (h : Fin n) (c : Spinlock.Cpu) : State n :=
  { s with cpus := Function.update s.cpus h c }

def setLock (s : State n) (l : Lock) (o : Option (Fin n)) : State n :=
  { s with locks := Function.update s.locks l o }

def setCproc (s : State n) (h : Fin n) (o : Option Slot) : State n :=
  { s with cproc := Function.update s.cproc h o }

def setSie (s : State n) (h : Fin n) (b : Bool) : State n :=
  s.setCpu h { s.cpus h with sie := b }

end State

/-- `lock(l)` of `spinlock.c` in one step: it waits while another hart holds
the lock and panics when this one does. -/
def lock (s : State n) (h : Fin n) (l : Lock) (k : Pc) : Option (State n) :=
  match s.locks l with
  | none => some (((s.setLock l (some h)).setCpu h (Spinlock.pushOff (s.cpus h))).setPc h k)
  | some h' => if h' = h then some (s.setPc h .panic) else none

/-- `unlock(l)` of `spinlock.c` in one step. -/
def unlock (s : State n) (h : Fin n) (l : Lock) (k : Pc) : State n :=
  if s.locks l = some h then
    match Spinlock.popOff (s.cpus h) with
    | .ok c => ((s.setLock l none).setCpu h c).setPc h k
    | .error _ => s.setPc h .panic
  else s.setPc h .panic

/-- The stores of `releaseproc`. -/
def releaseproc (q : Proc) : Proc :=
  { pid := 0, state := .unused, chan := none, parent := none, xstate := 0
    gen := q.gen + 1, origin := .none }

/-- `curr_pid++` on a 32-bit `int`. -/
def succPid (v : Int) : Int := Int.bmod (v + 1) (2 ^ 32)

/-- `sched`: the four checks, then `swtch` to the hart's scheduler.  The thread
resumes at `schedRet` with the `intena` it left with. -/
def sched (s : State n) (h : Fin n) (k : Pc) : State n :=
  match s.cproc h with
  | none => s.setPc h .panic
  | some p =>
      if s.locks (.proc p) ≠ some h ∨ (s.cpus h).depth ≠ 1 ∨ (s.procs p).state = .running ∨
          (s.cpus h).sie = true then s.setPc h .panic
      else { s with
        tpc := Function.update s.tpc p (.schedRet (s.cpus h).intena k)
        cur := Function.update s.cur h none }

/-- `sleep(c, lk)` up to the point where both locks have been handled. -/
def sleep (s : State n) (h : Fin n) (c : Chan) (lk : Lock) (k : Pc) : State n :=
  match s.cproc h with
  | none => s.setPc h .panic
  | some p => s.setPc h (.acq (.proc p) (.rel lk (.sleepSet p c lk k)))

/-- `yield` up to the state change. -/
def yield (s : State n) (h : Fin n) (k : Pc) : State n :=
  match s.cproc h with
  | none => s.setPc h .panic
  | some p => s.setPc h (.acq (.proc p) (.yieldSet p k))

/-- `clockintr` on hart `h`, then `k`. -/
def clockintr (h : Fin n) (k : Pc) : Pc :=
  if h.val = 0 then .acq .ticks (.clockTick k) else k

/-- A timer interrupt on hart `h`: from user mode `u_trap_handle` yields, from
the kernel `s_trap_handle` yields when a running process was interrupted. -/
def timer (s : State n) (h : Fin n) : Option (State n) :=
  if (s.cpus h).sie = true then
    if s.pcOf h = .user then
      match s.cproc h with
      | none => some (s.setPc h .panic)
      | some p => some ((s.setSie h false).setPc h
          (clockintr h (.acq (.proc p) (.yieldSet p .utrapret))))
    else some ((s.setSie h false).setPc h (clockintr h (.trapYield (s.cproc h) (.sret (s.pcOf h)))))
  else none

/-- A system call or a fault of user code: `u_trap_handle` turns interrupts on
for the first and leaves them off for the second. -/
def trap (s : State n) (h : Fin n) (c : Choice) : Option (State n) :=
  match s.cproc h with
  | none => some (s.setPc h .panic)
  | some p =>
      match c with
      | .fork => some ((s.setSie h true).setPc h (.paScan p 0))
      | .wait addr => some ((s.setSie h true).setPc h (.acq .wait (.waitScan p addr 0 false)))
      | .exit st => some ((s.setSie h true).setPc h (.mm (.acq .wait (.exitScan p st 0))))
      | .fault => some ((s.setSie h false).setPc h (.mm (.acq .wait (.exitScan p (-1) 0))))
      | .sleep m =>
          if m < 0 then some ((s.setSie h true).setPc h (.sysret .sleep p (-1)))
          else some ((s.setSie h true).setPc h (.acq .ticks (.sleepStart p m.toNat)))
      | .other v => some ((s.setSie h true).setPc h (.mm (.sysret .other p v)))
      | _ => none

/-- `fork` gives up after `procalloc` has claimed slot `i`. -/
def failFork (p i : Slot) : Pc :=
  .acq (.proc i) (.release i (.fail p) (.rel (.proc i) (.mm (.sysret .fork p (-1)))))

/-- `wait` releases the zombie in slot `i` and returns its pid. -/
def reap (p i : Slot) (pid : Int) : Pc :=
  .release i (.wait p) (.rel (.proc i) (.rel .wait (.sysret .wait p pid)))

/-- The next step of hart `h` inside the kernel. -/
def go (s : State n) (h : Fin n) (c : Choice) : Option (State n) :=
  match s.pcOf h with
  | .acq l k => lock s h l k
  | .rel l k => some (unlock s h l k)
  | .mm k =>
      match c with
      | .mem => some (s.setPc h (.acq .mem (.rel .mem (.mm k))))
      | .print => some (s.setPc h (.acq .print (.rel .print (.mm k))))
      | _ => some (s.setPc h k)
  | .user => trap s h c
  | .utrapret => some ((s.setSie h true).setPc h .user)
  | .sysret _ _ _ => some (s.setPc h .utrapret)
  | .clockTick k =>
      some ({ s with ticks := (s.ticks + 1) % 2 ^ 32 }.setPc h
        (.wakeup (some .ticks) 0 (.rel .ticks k)))
  | .trapYield o k =>
      match o with
      | none => some (s.setPc h k)
      | some p => if (s.procs p).state = .running then some (yield s h k) else some (s.setPc h k)
  | .sret k => some ((s.setSie h true).setPc h k)
  | .wakeup ch i k =>
      if hi : i < NPROC then some (s.setPc h (.acq (.proc ⟨i, hi⟩) (.wakeCheck ch ⟨i, hi⟩ k)))
      else some (s.setPc h k)
  | .wakeCheck ch i k =>
      let q := s.procs i
      let next := Pc.rel (.proc i) (.wakeup ch (i + 1) k)
      if q.chan = ch ∧ q.state = .waiting then
        some ((s.setProc i { q with state := .ready }).setPc h next)
      else some (s.setPc h next)
  | .sched k => some (sched s h k)
  | .schedRet ia k => some ((s.setCpu h { s.cpus h with intena := ia }).setPc h k)
  | .yieldSet p k =>
      some ((s.setProc p { s.procs p with state := .ready }).setPc h
        (.sched (.rel (.proc p) k)))
  | .sleepSet p ch lk k =>
      some ((s.setProc p { s.procs p with chan := some ch, state := .waiting }).setPc h
        (.sched (.sleepWake p lk k)))
  | .sleepWake p lk k =>
      some ((s.setProc p { s.procs p with chan := none }).setPc h
        (.rel (.proc p) (.acq lk k)))
  | .forkret _ =>
      match s.cproc h with
      | none => some (s.setPc h .panic)
      | some p => some (s.setPc h (.rel (.proc p) .utrapret))
  | .paScan p i =>
      if hi : i < NPROC then some (s.setPc h (.acq (.proc ⟨i, hi⟩) (.paCheck p ⟨i, hi⟩)))
      else some (s.setPc h (.mm (.sysret .fork p (-1))))
  | .paCheck p i =>
      if (s.procs i).state = .unused then
        some ((s.setProc i { s.procs i with state := .new }).setPc h
          (.rel (.proc i) (.acq .pid (.paPid p i))))
      else some (s.setPc h (.rel (.proc i) (.paScan p (i + 1))))
  | .paPid p i =>
      some ({ s with currPid := succPid s.currPid }.setPc h
        (.rel .pid (.paSetPid p i s.currPid)))
  | .paSetPid p i v =>
      some ((s.setProc i { s.procs i with pid := v }).setPc h (.mm (.paAlloc p i)))
  | .paAlloc p i =>
      if c = .fail then some (s.setPc h (failFork p i))
      else some ({ s with tpc := Function.update s.tpc i (.forkret i) }.setPc h
        (.mm (.forkCopy p i)))
  | .forkCopy p i =>
      if c = .fail then some (s.setPc h (failFork p i)) else some (s.setPc h (.forkPid p i))
  | .forkPid p i =>
      some (s.setPc h (.acq .wait (.acq (.proc i) (.forkPublish p i (s.procs i).pid))))
  | .forkPublish p i v =>
      some ((s.setProc i { s.procs i with
          parent := some p, state := .ready, origin := .forked p (s.procs p).gen }).setPc h
        (.rel (.proc i) (.rel .wait (.sysret .fork p v))))
  | .release q r k =>
      if c = .mem then some (s.setPc h (.acq .mem (.rel .mem (.release q r k))))
      else if s.locks (.proc q) = some h then
        some ((s.setProc q (releaseproc (s.procs q))).setPc h k)
      else some (s.setPc h .panic)
  | .waitScan p addr i hc =>
      if hi : i < NPROC then
        if (s.procs ⟨i, hi⟩).parent ≠ some p then some (s.setPc h (.waitScan p addr (i + 1) hc))
        else some (s.setPc h (.acq (.proc ⟨i, hi⟩) (.waitCheck p addr ⟨i, hi⟩)))
      else if hc = false then some (s.setPc h (.rel .wait (.sysret .wait p (-1))))
      else some (sleep s h (.proc p) .wait (.waitScan p addr 0 false))
  | .waitCheck p addr i =>
      let q := s.procs i
      if q.state = .zombie then
        if addr ≠ 0 then some (s.setPc h (.waitCopyout p addr i q.pid q.xstate))
        else some (s.setPc h (reap p i q.pid))
      else some (s.setPc h (.rel (.proc i) (.waitScan p addr (i + 1) true)))
  | .waitCopyout p _ i pid _ =>
      if c = .fail then some (s.setPc h (.rel (.proc i) (.rel .wait (.sysret .wait p (-1)))))
      else some (s.setPc h (reap p i pid))
  | .exitScan p st i =>
      if hi : i < NPROC then
        if (s.procs ⟨i, hi⟩).pid = 1 ∧ (⟨i, hi⟩ : Slot) ≠ p then
          some (s.setPc h (.exitScanState p st ⟨i, hi⟩))
        else some (s.setPc h (.exitScan p st (i + 1)))
      else some (s.setPc h (.exitChildren p st none 0 false))
  | .exitScanState p st i =>
      if (s.procs i).state ≠ .zombie then some (s.setPc h (.exitChildren p st (some i) 0 false))
      else some (s.setPc h (.exitScan p st (i + 1)))
  | .exitChildren p st r i g =>
      if hi : i < NPROC then
        if (s.procs ⟨i, hi⟩).parent = some p then
          some (s.setPc h (.acq (.proc ⟨i, hi⟩) (.exitHand p st r ⟨i, hi⟩ g)))
        else some (s.setPc h (.exitChildren p st r (i + 1) g))
      else if g = true then some (s.setPc h (.wakeup (r.map .proc) 0 (.exitParent p st)))
      else some (s.setPc h (.exitParent p st))
  | .exitHand p st r i g =>
      let q := s.procs i
      let s' := s.setProc i { q with
        parent := r
        origin := match r with
          | none => .none
          | some r => .handed r (s.procs r).gen }
      if q.state = .zombie then
        match r with
        | none => some (s'.setPc h
            (.release i (.kexit p) (.rel (.proc i) (.exitChildren p st none (i + 1) g))))
        | some r => some (s'.setPc h (.rel (.proc i) (.exitChildren p st (some r) (i + 1) true)))
      else some (s'.setPc h (.rel (.proc i) (.exitChildren p st r (i + 1) g)))
  | .exitParent p st =>
      if (s.procs p).parent = none then some (s.setPc h (.acq (.proc p) (.exitZombie p st)))
      else some (s.setPc h (.exitParentArg p st))
  | .exitParentArg p st =>
      some (s.setPc h (.wakeup ((s.procs p).parent.map .proc) 0
        (.acq (.proc p) (.exitZombie p st))))
  | .exitZombie p st =>
      some ((s.setProc p { s.procs p with xstate := st, state := .zombie }).setPc h
        (.rel .wait (.exitSched p)))
  | .exitSched p => some (sched s h (.dead p))
  | .dead _ => some (s.setPc h .panic)
  | .sleepStart p m => some (s.setPc h (.sleepLoop p m s.ticks))
  | .sleepLoop p m start =>
      if (s.ticks + 2 ^ 32 - start) % 2 ^ 32 < m then
        some (sleep s h .ticks .ticks (.sleepLoop p m start))
      else some (s.setPc h (.rel .ticks (.sysret .sleep p 0)))
  | .schedOn => some ((s.setSie h true).setPc h .schedOff)
  | .schedOff => some ((s.setSie h false).setPc h (.schedScan 0))
  | .schedScan i =>
      if hi : i < NPROC then some (s.setPc h (.acq (.proc ⟨i, hi⟩) (.schedCheck ⟨i, hi⟩)))
      else some (s.setPc h .schedOn)
  | .schedCheck i =>
      if (s.procs i).state = .ready then
        some (((s.setProc i { s.procs i with state := .running }).setCproc h (some i)).setPc h
          (.schedSwtch i))
      else some (s.setPc h (.rel (.proc i) (.schedScan (i + 1))))
  | .schedSwtch i =>
      some { s with
        spc := Function.update s.spc h (.schedBack i)
        cur := Function.update s.cur h (some i) }
  | .schedBack i => some ((s.setCproc h none).setPc h (.schedReap i))
  | .schedReap i =>
      let next := Pc.rel (.proc i) (.schedScan (i + 1))
      if (s.procs i).state = .zombie ∧ (s.procs i).parent = none then
        some (s.setPc h (.release i .sched next))
      else some (s.setPc h next)
  | .panic => none

/-- One step of hart `h`. -/
def next (s : State n) (h : Fin n) (c : Choice) : Option (State n) :=
  match c with
  | .timer => timer s h
  | c => go s h c

/-- What a step shows to the outside. -/
inductive Event where
  | tau
  /-- `procalloc` takes slot `q`. -/
  | claim (q : Slot)
  /-- `allocpid` returns `v`. -/
  | allocpid (v : Int)
  /-- The process in slot `q` calls `kexit(status)`. -/
  | exit (q : Slot) (status : Int)
  /-- `kexit` of the process in slot `p` replaces the parent of slot `q`, which is
  `parent`, by `reaper`. -/
  | hand (p q : Slot) (parent reaper : Option Slot)
  /-- `releaseproc(q)`, called by `r`, resets the slot, which holds `pid`. -/
  | release (q : Slot) (r : Releaser) (pid : Int)
  /-- The process in slot `p` calls `wait(addr)`. -/
  | waitCall (p : Slot) (addr : Nat)
  /-- `wait` copies the status `v` out to `addr`. -/
  | store (p : Slot) (addr : Nat) (v : Int)
  /-- The system call `c` returns `v`. -/
  | ret (c : Sys) (p : Slot) (v : Int)
  deriving DecidableEq, Repr

/-- What the step of hart `h` with choice `c` shows. -/
def emit (s : State n) (h : Fin n) (c : Choice) : Event :=
  if c = .timer then .tau else
  match s.pcOf h with
  | .user =>
      match s.cproc h, c with
      | some p, .wait addr => .waitCall p addr
      | some p, .exit st => .exit p st
      | some p, .fault => .exit p (-1)
      | _, _ => .tau
  | .sysret c p v => .ret c p v
  | .paCheck _ i => if (s.procs i).state = .unused then .claim i else .tau
  | .paPid _ _ => .allocpid s.currPid
  | .exitHand p _ r i _ => .hand p i (s.procs i).parent r
  | .release q r _ => if c = .mem then .tau else .release q r (s.procs q).pid
  | .waitCopyout p addr _ _ x => if c = .fail then .tau else .store p addr x
  | _ => .tau

/-- The label of a step: the hart, its choice, and what it shows. -/
structure Label (n : Nat) where
  hart : Fin n
  choice : Choice
  event : Event

/-- The state in which `main` enters `scheduler` on every hart: slot 0 holds
`init`, READY, with pid 1 and no parent, and every other slot is UNUSED. -/
def boot (n : Nat) : State n where
  procs i :=
    { pid := if i.val = 0 then 1 else 0
      state := if i.val = 0 then .ready else .unused
      chan := none, parent := none, xstate := 0, gen := 0, origin := .none }
  locks _ := none
  cpus _ := { depth := 0, intena := false, sie := false }
  cproc _ := none
  cur _ := none
  tpc i := .forkret i
  spc _ := .schedOn
  currPid := 2
  ticks := 0

/-- `n` harts running the kernel from boot. -/
def system (n : Nat) : Lts (State n) (Label n) where
  init s := s = boot n
  step s a s' := next s a.hart a.choice = some s' ∧ a.event = emit s a.hart a.choice

/-- `k` steps of hart `h` that leave it no choice. -/
def goes (h : Fin n) (k : Nat) : List (Fin n × Choice) := List.replicate k (h, .go)

/-- Follow a schedule, which says who steps and how. -/
def run (s : State n) (l : List (Fin n × Choice)) : Option (State n) :=
  Lts.exec (fun s a => next s a.1 a.2) l s

theorem reachable_run {l : List (Fin n × Choice)} {s s' : State n}
    (hs : (system n).Reachable s) (hr : run s l = some s') : (system n).Reachable s' := by
  induction l generalizing s with
  | nil => cases hr; exact hs
  | cons a l ih =>
      obtain ⟨s₁, h₁, h₂⟩ := Option.bind_eq_some_iff.1 hr
      exact ih (hs.next (a := ⟨a.1, a.2, emit s a.1 a.2⟩) ⟨h₁, rfl⟩) h₂

/-- Follow a schedule with a history variable. -/
def runWatched {γ : Type*} (note : State n → Label n → γ → γ) (x : State n × γ)
    (l : List (Fin n × Choice)) : Option (State n × γ) :=
  Lts.exec (Lts.watchNext (fun s a => next s a.1 a.2)
    fun s a => note s ⟨a.1, a.2, emit s a.1 a.2⟩) l x

theorem reachable_runWatched {T : Lts (State n) (Label n)} (hT : T.step = (system n).step)
    {γ : Type*} {g₀ : γ} {note : State n → Label n → γ → γ} {x y : State n × γ}
    {l : List (Fin n × Choice)} (hx : (T.watch g₀ note).Reachable x)
    (hr : runWatched note x l = some y) : (T.watch g₀ note).Reachable y := by
  induction l generalizing x with
  | nil => cases hr; exact hx
  | cons a l ih =>
      obtain ⟨z, h₁, h₂⟩ := Option.bind_eq_some_iff.1 hr
      obtain ⟨s, hs, rfl⟩ := Option.map_eq_some_iff.1 h₁
      have hstep : T.step x.1 ⟨a.1, a.2, emit x.1 a.1 a.2⟩ s := by
        rw [hT]
        exact ⟨hs, rfl⟩
      have hz : (T.watch g₀ note).Reachable (s, note x.1 ⟨a.1, a.2, emit x.1 a.1 a.2⟩ x.2) :=
        hx.next (a := ⟨a.1, a.2, emit x.1 a.1 a.2⟩) ⟨hstep, rfl⟩
      exact ih hz h₂

/-- Follow a schedule as long as its steps meet a condition. -/
def runWhile (ok : State n → Label n → Prop) [∀ s a, Decidable (ok s a)] (s : State n) :
    List (Fin n × Choice) → Option (State n)
  | [] => some s
  | (h, c) :: l =>
      if ok s ⟨h, c, emit s h c⟩ then (next s h c).bind (runWhile ok · l) else none

theorem reachable_runWhile {ok : State n → Label n → Prop} [∀ s a, Decidable (ok s a)]
    {l : List (Fin n × Choice)} {s s' : State n} (hs : ((system n).restrict ok).Reachable s)
    (hr : runWhile ok s l = some s') : ((system n).restrict ok).Reachable s' := by
  induction l generalizing s with
  | nil => cases hr; exact hs
  | cons a l ih =>
      rw [runWhile] at hr
      split at hr
      · next hok =>
        obtain ⟨s₁, h₁, h₂⟩ := Option.bind_eq_some_iff.1 hr
        exact ih (hs.next (a := ⟨a.1, a.2, emit s a.1 a.2⟩) ⟨hok, h₁, rfl⟩) h₂
      · cases hr

end Wl00.Sched
