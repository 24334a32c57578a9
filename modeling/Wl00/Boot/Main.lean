import Wl00.Lib.Transition
import Wl00.Vm.Kernel
import Wl00.Vm.Write

/-!
# From reset to the scheduler

The model of `boot_asm.S`, `boot.c` and `main.c`.  All harts come out of reset at `_entry`.  Harts
for which there is no `struct cpu` park.  Hart 0 clears `.bss` and sets the kernel up; the others
wait for the flag `init`, which is in `.data`, and then set themselves up while hart 0 is already
scheduling.

Until `init` is set, hart 0 has the kernel to itself, and what it does to memory and to
`proctable` is done in one go for each function that it calls, as in `Wl00.Vm`.  `print_lock` and
the bookkeeping of the harts are shared with those that schedule.

A hart that has called `scheduler` makes the steps of `Wl00.Sched`.  What it does in them to
memory, to the fields of `proctable` that are not the schedulers', to the console and to its own
`satp` and `stvec` is arbitrary here: a booting hart reads none of it.

The device registers that `uart_init` writes, and the machine-mode registers that `boot` writes,
are not part of the state, but for `satp`.
-/

namespace Wl00.Boot

open Vm (Layout Kernel KernelM Mem Programs NCPU Hart cstr makeSatp)
open Sched (Slot Lock NPROC)

/-- The lines that `main` prints. -/
inductive Line where
  | blank
  | booting
  | mainCpu
  | cpu
  deriving DecidableEq, Repr

def Line.text (tp : Hart) : Line → List UInt8
  | .blank => Vm.printf (cstr "\n") []
  | .booting => Vm.printf (cstr "wl-00 kernel is booting\n") []
  | .mainCpu => Vm.printf (cstr "Main cpu %d initialized!\n") [.word tp]
  | .cpu => Vm.printf (cstr "cpu %d initialized\n") [.word tp]

/-- What a hart does between reset and `scheduler`. -/
inductive Stmt where
  /-- The loop of `_entry` over `.bss` -/
  | zeroBss
  /-- `boot`, which ends in `main` -/
  | boot
  /-- `while(!init) {}` -/
  | waitInit
  /-- `cpus[r_tp()].id = r_tp()` -/
  | setId
  /-- `printf`: `lock(&print_lock)` -/
  | lockPrint
  | puts (line : Line)
  /-- `printf`: `unlock(&print_lock)` -/
  | unlockPrint
  | initBitmap
  | initKptable
  | initKvmhart
  | initClock
  | initTrap
  | initProctable
  | initUserproc
  /-- `init = 1` -/
  | publish
  deriving DecidableEq, Repr

def printf (line : Line) : List Stmt := [.lockPrint, .puts line, .unlockPrint]

/-- `_entry` from the choice of the stack on, `boot` and `main`, on the hart with this `tp` -/
def program (tp : Hart) : List Stmt :=
  if tp = 0 then
    [.zeroBss, .boot, .setId] ++ printf .blank ++ printf .booting ++
      [.initBitmap, .initKptable, .initKvmhart, .initClock, .initTrap, .initProctable,
        .initUserproc] ++ printf .mainCpu ++ [.publish]
  else
    [.boot, .waitInit, .setId, .initKvmhart, .initTrap] ++ printf .cpu

/-- Where a hart is. -/
inductive Point where
  | entry
  /-- The loop at `park` -/
  | park
  /-- On its way to `scheduler`; the hart's number is in `tp`. -/
  | run (tp : Hart) (todo : List Stmt)
  | scheduler (tp : Hart)
  | panic

/-- The whole machine; harts are counted by `mhartid`.  Of `sched`, the locks, the bookkeeping of
the harts and `ticks` count from the start, the rest once `init` is set; `proctable` and
`curr_pid` are in `kernel` and, from then on, what `sched` has of them as well. -/
structure Machine (L : Layout) where
  init : Bool
  kernel : Kernel L
  sched : Sched.State NCPU
  id : Hart → Nat
  satp : Hart → Nat
  stvec : Hart → Nat
  console : List UInt8
  point : Nat → Point

variable {L : Layout}

def Machine.goto (m : Machine L) (i : Nat) (p : Point) : Machine L :=
  { m with point := Function.update m.point i p }

/-- What hart 0 does to memory, `proctable` and `kptable`. -/
def Stmt.work (progs : Programs) : Stmt → KernelM L Unit
  | .initBitmap => Vm.onMem Vm.initBitmap
  | .initKptable => do
      let kpt ← Vm.onMem Vm.kptableMake
      modify fun k => { k with kptable := kpt }
  | .initProctable =>
      modify fun k => { k with procs := fun i => { k.procs i with kstack := 0, state := .unused } }
  | .initUserproc => Vm.initUserproc progs
  | _ => pure ()

/-- A slot, as the schedulers find it. -/
def slotOf (q : Vm.Proc) : Sched.Proc where
  pid := q.pid
  state := q.state
  chan := q.chan
  parent := q.parent
  xstate := q.xstate
  gen := 0
  origin := .none

/-- `proctable` and `curr_pid` as hart 0 leaves them.  No hart is in its scheduler yet, and a
process that has been set up will begin in `forkret`. -/
def launch (k : Kernel L) (s : Sched.State NCPU) : Sched.State NCPU := { s with
  procs := fun i => slotOf (k.procs i)
  currPid := k.currPid
  cur := fun _ => none
  tpc := fun i => .forkret i
  spc := fun _ => .schedOn }

/-- `.bss` is 0: `proctable`, the bitmap, `kptable`, `cpus` and all locks.  `curr_pid` is in
`.data`. -/
def zeroBss (m : Machine L) : Machine L := { m with
  kernel := { Kernel.start L m.kernel.mem.bytes with currPid := m.kernel.currPid }
  sched := { m.sched with
    locks := fun _ => none
    cpus := fun h => { m.sched.cpus h with depth := 0, intena := false }
    cproc := fun _ => none
    ticks := 0 }
  id := fun _ => 0 }

/-- The locks that a statement initializes. -/
def Stmt.inits : Stmt → Lock → Bool
  | .initBitmap, .mem | .initClock, .ticks | .initProctable, .pid | .initProctable, .wait
  | .initProctable, .proc _ => true
  | _, _ => false

def initLocks (x : Stmt) (s : Sched.State NCPU) : Sched.State NCPU :=
  { s with locks := fun l => if x.inits l = true then none else s.locks l }

/-- How a statement ends. -/
inductive Outcome (α : Type) where
  | done (a : α)
  /-- It goes on waiting. -/
  | waits
  | panics

/-- One statement, on the hart with this `tp` -/
def exec (progs : Programs) (m : Machine L) (tp : Hart) : Stmt → Outcome (Machine L)
  | .zeroBss => .done (zeroBss m)
  | .boot => .done { m with satp := Function.update m.satp tp 0 }
  | .waitInit => if m.init = true then .done m else .waits
  | .setId => .done { m with id := Function.update m.id tp tp }
  | .lockPrint =>
      match m.sched.locks .print with
      | none => .done { m with
          sched := (m.sched.setLock .print (some tp)).setCpu tp (Spinlock.pushOff (m.sched.cpus tp)) }
      | some h => if h = tp then .panics else .waits
  | .puts line => .done { m with console := m.console ++ line.text tp }
  | .unlockPrint =>
      if m.sched.locks .print = some tp then
        match Spinlock.popOff (m.sched.cpus tp) with
        | .ok c => .done { m with sched := (m.sched.setLock .print none).setCpu tp c }
        | .error _ => .panics
      else .panics
  | .initKvmhart => .done { m with satp := Function.update m.satp tp (makeSatp m.kernel.kptable) }
  | .initClock => .done { m with sched := { initLocks .initClock m.sched with ticks := 0 } }
  | .initTrap => .done { m with stvec := Function.update m.stvec tp L.kerneltrap }
  | .publish => .done { m with init := true, sched := launch m.kernel m.sched }
  | x =>
      match x.work progs m.kernel with
      | .ok (_, k) => .done { m with kernel := k, sched := initLocks x m.sched }
      | .error _ => .panics

/-- What a hart that schedules does in a step besides: it leaves this memory and these slots,
prints `out`, and has these values in its registers. -/
structure Effect (L : Layout) where
  mem : Mem L
  procs : Slot → Vm.Proc
  out : List UInt8
  satp : Nat
  stvec : Nat

/-- How a step goes on; the effect is that of a hart that schedules. -/
structure Act (L : Layout) where
  choice : Sched.Choice
  effect : Effect L

/-- A slot with what the schedulers have in it. -/
def withSlot (q : Vm.Proc) (p : Sched.Proc) : Vm.Proc := { q with
  pid := p.pid
  state := p.state
  chan := p.chan
  parent := p.parent
  xstate := p.xstate }

/-- Hart `tp` has taken the schedulers to `s`.  Nothing writes `kptable` or a `struct cpu`'s `id`
any more. -/
def Machine.follow (m : Machine L) (tp : Hart) (s : Sched.State NCPU) (e : Effect L) :
    Machine L := { m with
  sched := s
  kernel := { m.kernel with
    mem := e.mem
    procs := fun i => withSlot (e.procs i) (s.procs i)
    currPid := s.currPid }
  console := m.console ++ e.out
  satp := Function.update m.satp tp e.satp
  stvec := Function.update m.stvec tp e.stvec }

/-- One step of the hart with this `mhartid`. -/
def step (progs : Programs) (m : Machine L) (i : Nat) (a : Act L) : Option (Machine L) :=
  match m.point i with
  | .entry => some (m.goto i (if hi : i < NCPU then .run ⟨i, hi⟩ (program ⟨i, hi⟩) else .park))
  | .park | .panic => none
  | .run tp [] => some (m.goto i (.scheduler tp))
  | .run tp (x :: xs) =>
      match exec progs m tp x with
      | .done m' => some (m'.goto i (.run tp xs))
      | .waits => none
      | .panics => some (m.goto i .panic)
  | .scheduler tp => (Sched.next m.sched tp a.choice).map fun s => m.follow tp s a.effect

/-- Out of reset: `.data` is there, and interrupts are off.  Nothing else is known of memory. -/
structure Reset (m : Machine L) : Prop where
  init : m.init = false
  currPid : m.kernel.currPid = 1
  point : ∀ i, m.point i = .entry
  sie : ∀ h, (m.sched.cpus h).sie = false

/-- Any number of harts out of reset. -/
def system (L : Layout) (progs : Programs) : Lts (Machine L) (Nat × Act L) where
  init := Reset
  step m a m' := step progs m a.1 a.2 = some m'

end Wl00.Boot
