import Wl00.Trap.Kernel
import Wl00.Vm.Kernel
import Wl00.Vm.Write

/-!
# Traps from user mode, down to the registers

The kernel of `Wl00.Vm` on its harts: user code, `usertrap`, `u_trap_handle`, `syscall` and
`utrapret` with `usertrapret`.  A trapframe is bytes of the memory that all processes and the
kernel share.

The thread of a process in the kernel goes from one `Stage` to the next, and between two of
them anything else may happen: its hart takes an interrupt and gives it up to another
process, other harts run their processes, and the process is picked up by another hart.
Within a stage the kernel's work is done in one go, as in `Wl00.Vm.Kernel`.  Compiled code of
the kernel leaves anything in the registers of its hart except in `tp`, which it does not
write.

The code that a trap from user mode enters is taken to be `usertrap`, and the one that this
enters `u_trap_handle`, on the stack of the process and with the table of the kernel: that
`stvec` and the trapframe say so is `usertrap_enters` in `Wl00.Trap.Serve`.  `utrapret` turns
interrupts off before it sets `stvec`, and is one step.
-/

namespace Wl00.Trap.User

open Rv32 Vm
open Sched (Slot)

variable {L : Layout}

/-- What `tp` is in the kernel -/
def hartId (h : Hart) : Word := BitVec.ofNat 32 h.val

/-- `k_hartid` in the trapframe -/
abbrev kHartidOff : Nat := 148

abbrev SCAUSE_USER_ECALL : Word := 8#32

/-! ## The machine -/

/-- Where the thread of a process is. -/
inductive Stage where
  /-- In user mode. -/
  | user
  /-- `u_trap_handle`, about to call `yield` -/
  | yield
  /-- `syscall` -/
  | syscall
  /-- The loop of `wait` -/
  | wait (addr : UInt32)
  /-- The loop of `sys_sleep` -/
  | sleep (start n : Word)
  /-- `syscall`, when the function has returned `v` -/
  | result (v : Word)
  /-- `kexit` -/
  | exit (status : Int)
  /-- `utrapret` -/
  | ret
  deriving DecidableEq

/-- A trap: the registers and the pc of user mode, the cause, and what the function of a
system call has returned. -/
structure Entry where
  x : Reg → Word
  pc : Word
  scause : Word
  ret : Option Word

/-- `proc` is the field of `cpus`; `pc` is that of user code.  A history variable is the trap
by which the thread of a process has come into the kernel, or came last; it is forgotten when
`exec` has succeeded. -/
structure Machine (L : Layout) where
  kernel : Kernel L
  ticks : Word
  core : Hart → Core
  pc : Hart → Word
  proc : Hart → Option Slot
  stage : Slot → Stage
  entry : Slot → Option Entry

/-- The word at an offset in the trapframe of `p` -/
def tfWord (k : Kernel L) (p : Slot) (o : Nat) : Nat := k.mem.bytes.word ((k.procs p).tf + o)

/-- Store a word there. -/
def storeTf (k : Kernel L) (p : Slot) (o w : Nat) : Kernel L :=
  { k with mem := k.mem.mapBytes (·.storeWord ((k.procs p).tf + o) w) }

namespace Machine

variable (s : Machine L)

/-- The process that runs in user mode on hart `h`. -/
def userProc (h : Hart) : Option Slot := (s.proc h).filter (s.stage · = .user)

/-- `myproc`: `tp` says whose `struct cpu` it is. -/
def myproc (h : Hart) : Option Slot :=
  let id := ((s.core h).x .tp).toNat
  if hid : id < NCPU then s.proc ⟨id, hid⟩ else none

/-- The kernel is `k` now.  A slot that was UNUSED may have got a process, whose thread
begins in `forkret`. -/
def withKernel (k : Kernel L) : Machine L := { s with
  kernel := k
  stage := fun q => if (s.kernel.procs q).state = .unused then .ret else s.stage q
  entry := fun q => if (s.kernel.procs q).state = .unused then none else s.entry q }

/-- The kernel does some work; where it panics, that is the end. -/
def exec {α : Type} (m : KernelM L α) : Option (α × Machine L) :=
  match m s.kernel with
  | .ok (a, k) => some (a, s.withKernel k)
  | .error _ => none

/-- The thread of `p` goes on to `st`. -/
def goto (p : Slot) (st : Stage) : Machine L := { s with stage := Function.update s.stage p st }

/-- The function of a system call returns `v`. -/
def returns (p : Slot) (v : Word) : Machine L := { s.goto p (.result v) with
  entry := Function.update s.entry p ((s.entry p).map fun e => { e with ret := some v }) }

/-- The process begins anew. -/
def forget (p : Slot) : Machine L := { s with entry := Function.update s.entry p none }

/-- `clockintr`, if `dev` says that the timer has interrupted -/
def clockintr (h : Hart) (dev : Nat) : Option (Machine L) :=
  if dev = 2 ∧ (s.core h).x .tp = 0 then
    ({ s with ticks := s.ticks + 1 }.exec (wakeup (some .ticks))).map Prod.snd
  else some s

end Machine

/-- `scheduler`, after `swtch` has come back from `p` -/
def reap (p : Slot) : KernelM L Unit := do
  let pp ← getProc p
  if pp.state = .zombie ∧ pp.parent = none then releaseproc p else pure ()

/-- `sched` of the process `p` on hart `h` -/
def Machine.sched (s : Machine L) (h : Hart) (p : Slot) : Option (Machine L) :=
  ({ s with proc := Function.update s.proc h none }.exec (reap p)).map Prod.snd

/-! ## Into the kernel -/

/-- What the hardware does to `sstatus` at a trap from user mode: SPP is cleared, SIE moves to
SPIE. -/
def userStatus (w : Word) : Word :=
  (w &&& ~~~0x122#32) ||| (if w.getLsbD 1 then 0x20#32 else 0#32)

/-- Where `u_trap_handle` goes on after an interrupt. -/
def afterIntr (dev : Nat) : Stage := if dev = 2 then .yield else .ret

/-- `u_trap_handle` of the process `p`, up to `yield`, `syscall`, `kexit` or `utrapret` -/
def uTrapHandle (s : Machine L) (h : Hart) (p : Slot) (scause sepc : Word) : Option (Machine L) :=
  if ((s.core h).csr .sstatus).getLsbD 8 = true then none
  else
    let s := { s with kernel := storeTf s.kernel p epcOff sepc.toNat }
    if scause.getLsbD 31 = true then
      let dev := devintr scause
      if dev = 0 then none
      else (s.goto p (afterIntr dev)).clockintr h dev
    else if scause = SCAUSE_USER_ECALL then
      let epc := (tfWord s.kernel p epcOff + 4) % 2 ^ 32
      some ({ s with kernel := storeTf s.kernel p epcOff epc }.goto p .syscall)
    else some (s.goto p (.exit (-1)))

/-- The registers of a hart after the trap itself -/
def trapCore (c : Core) (pc scause : Word) : Core :=
  ((c.setCsr .sepc pc).setCsr .scause scause).setCsr .sstatus (userStatus (c.csr .sstatus))

/-- The machine when `usertrap` has run on hart `h`, whose process `p` has trapped -/
def entered (s : Machine L) (h : Hart) (p : Slot) (scause : Word) : Machine L :=
  let c := trapCore (s.core h) (s.pc h) scause
  { s with
    kernel := { s.kernel with mem := s.kernel.mem.mapBytes fun m => (run c m usertrap).2 }
    core := Function.update s.core h (run c s.kernel.mem.bytes usertrap).1
    entry := Function.update s.entry p (some ⟨(s.core h).x, s.pc h, scause, none⟩) }

/-- A trap from user mode -/
def trap (s : Machine L) (h : Hart) (p : Slot) (scause : Word) : Option (Machine L) :=
  let s := entered s h p scause
  (s.myproc h).bind fun p => uTrapHandle s h p ((s.core h).x .a0) ((s.core h).x .a1)

/-! ## System calls -/

abbrev SYS_EXIT : Int := 1
abbrev SYS_WAIT : Int := 3
abbrev SYS_EXEC : Int := 4
abbrev SYS_FORK : Int := 5
abbrev SYS_WRITE : Int := 7
abbrev SYS_GETPID : Int := 10
abbrev SYS_SLEEP : Int := 11

/-- `argraw(n)`, for `n ≤ 5` -/
def argraw (s : Machine L) (p : Slot) (n : Nat) : Nat := tfWord s.kernel p (regOff (10 + n))

/-- `syscall` of the process `p`, up to the return of the function, or up to its loop.  The
other numbers are those of functions that only return -1, or of none. -/
def syscall (progs : Programs) (kbuf : Bytes) (s : Machine L) (p : Slot) : Option (Machine L) :=
  let num := int32 (tfWord s.kernel p (regOff 17))
  if num = SYS_EXIT then some (s.goto p (.exit (int32 (argraw s p 0))))
  else if num = SYS_WAIT then some (s.goto p (.wait (.ofNat (argraw s p 0))))
  else if num = SYS_EXEC then
    (s.exec (sysExec progs p)).map fun r =>
      (if 0 ≤ r.1 then r.2.forget p else r.2).returns p (BitVec.ofInt 32 r.1)
  else if num = SYS_FORK then
    (s.exec (fork p)).map fun r => r.2.returns p (BitVec.ofInt 32 r.1)
  else if num = SYS_WRITE then
    (s.exec (sysWrite p kbuf)).map fun r => r.2.returns p (BitVec.ofInt 32 r.1.1)
  else if num = SYS_GETPID then some (s.returns p (BitVec.ofInt 32 (s.kernel.procs p).pid))
  else if num = SYS_SLEEP then
    if int32 (argraw s p 0) < 0 then some (s.returns p (BitVec.ofInt 32 (-1)))
    else some (s.goto p (.sleep s.ticks (BitVec.ofNat 32 (argraw s p 0))))
  else some (s.returns p (BitVec.ofInt 32 (-1)))

/-! ## Back to user mode -/

/-- What `utrapret` makes of `sstatus`: `interrupt_off` has cleared SIE, SPP is cleared, SPIE is
set. -/
def returnStatus (w : Word) : Word := (w &&& ~~~0x102#32) ||| 0x20#32

/-- The registers when `utrapret` jumps to `usertrapret` -/
def returnCore (L : Layout) (c : Core) (pp : Proc) (epc : Nat) : Core :=
  (((((c.setCsr .stvec (BitVec.ofNat 32 L.usertrap)).setCsr .sscratch
    (BitVec.ofNat 32 pp.tf)).setCsr .sstatus
    (returnStatus (c.csr .sstatus))).setCsr .sepc (BitVec.ofNat 32 epc)).setCsr .satp
    (BitVec.ofNat 32 (makeSatp pp.pt))).set .a0 (BitVec.ofNat 32 pp.tf)

/-- `utrapret` sets `k_sp` and `k_hartid` for the next trap. -/
def readyTf (k : Kernel L) (p : Slot) (tp : Word) : Kernel L :=
  storeTf (storeTf k p kSpOff ((k.procs p).kstack + PAGE_SIZE)) p kHartidOff tp.toNat

/-- The rest of it, and `usertrapret`, up to `sret`: the registers, and memory -/
def returned (k : Kernel L) (p : Slot) (c : Core) : Core × Bytes :=
  run (returnCore L c (k.procs p) (tfWord k p epcOff)) k.mem.bytes usertrapret

/-- `utrapret` of the process `p` on hart `h`, with `usertrapret` and `sret` -/
def utrapret (s : Machine L) (h : Hart) (p : Slot) : Machine L :=
  let k := readyTf s.kernel p ((s.core h).x .tp)
  let r := returned k p (s.core h)
  { s with
    kernel := { k with mem := k.mem.mapBytes fun _ => r.2 }
    core := Function.update s.core h (r.1.setCsr .sstatus (sretStatus (r.1.csr .sstatus)))
    pc := Function.update s.pc h (r.1.csr .sepc)
    stage := Function.update s.stage p .user }

/-! ## Steps -/

/-- The process `p` on hart `h` gives the hart up, as `yield` does. -/
def yield (progs : Programs) (s : Machine L) (h : Hart) (p : Slot) : Option (Machine L) :=
  (s.exec (Op.run progs (.yield p))).bind fun r => r.2.sched h p

/-- The thread of process `p`, which hart `h` runs in the kernel, goes on. -/
def go (progs : Programs) (kbuf : Bytes) (s : Machine L) (h : Hart) (p : Slot) :
    Option (Machine L) :=
  match s.stage p with
  | .user => none
  | .yield => yield progs (s.goto p .ret) h p
  | .syscall => syscall progs kbuf s p
  | .wait addr => (s.exec (Vm.wait p addr.toNat)).bind fun r =>
      match r.1 with
      | some v => some (r.2.returns p (BitVec.ofInt 32 v))
      | none => r.2.sched h p
  | .sleep start n =>
      if s.ticks - start < n then (s.exec (Op.run progs (.sleep p))).bind fun r => r.2.sched h p
      else some (s.returns p 0)
  | .result v => some ({ s with kernel := storeTf s.kernel p (regOff 10) v.toNat }.goto p .ret)
  | .exit status => (s.exec (kexit p status)).bind fun r => r.2.sched h p
  | .ret => some (utrapret s h p)

/-- `s_trap_handle`: an interrupt while hart `h` is in the kernel -/
def sTrap (progs : Programs) (s : Machine L) (h : Hart) (scause : Word) : Option (Machine L) :=
  if scause.getLsbD 31 = false ∨ devintr scause = 0 then none
  else (s.clockintr h (devintr scause)).bind fun s' =>
    match s.myproc h with
    | none => some s'
    | some p =>
        if devintr scause = 2 ∧ (s'.kernel.procs p).state = .running then yield progs s' h p
        else some s'

/-- What happens on hart `h`. -/
inductive Act where
  /-- User code runs: its registers and its pc are these now. -/
  | user (h : Hart) (x : Reg → Word) (pc : Word)
  /-- User code stores a byte. -/
  | poke (h : Hart) (va : UInt32) (b : UInt8)
  /-- User code traps. -/
  | trap (h : Hart) (scause : Word)
  /-- Code of the kernel changes registers. -/
  | compute (h : Hart) (c : Core)
  /-- An interrupt in the kernel. -/
  | interrupt (h : Hart) (scause : Word)
  /-- The thread on the hart goes on; `kbuf` is what there is on the stack of `sys_write`. -/
  | go (h : Hart) (kbuf : Bytes)
  /-- The scheduler picks the process `p`. -/
  | dispatch (h : Hart) (p : Slot)

/-- One step, if it is possible and does not panic. -/
def next (progs : Programs) (s : Machine L) : Act → Option (Machine L)
  | .user h x pc =>
      if s.userProc h ≠ none then
        some { s with
          core := Function.update s.core h ⟨x, (s.core h).csr⟩
          pc := Function.update s.pc h pc }
      else none
  | .poke h va b => (s.userProc h).bind fun p =>
      (s.exec (Op.run progs (.poke p va b))).map Prod.snd
  | .trap h scause => (s.userProc h).bind fun p => trap s h p scause
  | .compute h c =>
      if s.userProc h = none ∧ c.x .tp = (s.core h).x .tp then
        some { s with core := Function.update s.core h c }
      else none
  | .interrupt h scause => if s.userProc h = none then sTrap progs s h scause else none
  | .go h kbuf =>
      if s.userProc h = none then (s.myproc h).bind fun p => go progs kbuf s h p else none
  | .dispatch h p =>
      if s.proc h = none ∧ (s.kernel.procs p).state = .ready then
        (s.exec (Op.run progs (.dispatch p))).map fun r =>
          { r.2 with proc := Function.update r.2.proc h (some p) }
      else none

/-- When `main` has called `scheduler` on every hart. -/
def start (progs : Programs) (s : Machine L) : Prop :=
  (∃ bytes, boot progs (.start L bytes) = .ok ((), s.kernel)) ∧
    (∀ h, s.proc h = none ∧ (s.core h).x .tp = hartId h) ∧
    ∀ p, s.stage p = .ret ∧ s.entry p = none

def system (L : Layout) (progs : Programs) : Lts (Machine L) Act := .ofNext (start progs) (next progs)

end Wl00.Trap.User
