import Wl00.Sched.Basic
import Wl00.Vm.Load

/-!
# Processes and their memory

The model of `kernel/proc.c` as far as it concerns memory: how a slot of `proctable`
gets its pages, hands them to a child and gives them back.  Each function runs to
its end here; the steps of several harts interleave in `Wl00.Sched`, whose states,
slots and channels are used.

A trapframe lives in its page, at the offsets that `usertrap.S` knows.
-/

namespace Wl00.Vm

open Prog
open Sched (ProcState Slot NPROC Chan succPid)

variable {L : Layout}

/-- `struct context`: all but `ra` and `sp` is 0 until the process first runs. -/
structure Context where
  ra : Nat
  sp : Nat
  deriving DecidableEq

/-- `struct proc`.  A pointer is an address, 0 for NULL; `parent` is a slot. -/
structure Proc where
  pid : Int
  state : ProcState
  name : Fin 16 → UInt8
  pt : Nat
  kstack : Nat
  sz : Nat
  tf : Nat
  xstate : Int
  chan : Option Chan
  context : Context
  parent : Option Slot

/-- Memory, `proctable`, `curr_pid` and `kptable`. -/
structure Kernel (L : Layout) where
  mem : Mem L
  procs : Slot → Proc
  currPid : Int
  kptable : Nat

/-- Programs on the whole kernel. -/
abbrev KernelM (L : Layout) := StateT (Kernel L) (Except Panic)

/-- A program on the memory. -/
def onMem {α : Type} (m : MemM L α) : KernelM L α :=
  zoom Kernel.mem (fun t k => { k with mem := t }) m

/-- Change a slot. -/
def Kernel.setProc (k : Kernel L) (i : Slot) (f : Proc → Proc) : Kernel L :=
  { k with procs := Function.update k.procs i (f (k.procs i)) }

def modifyProc (i : Slot) (f : Proc → Proc) : KernelM L Unit := modify (·.setProc i f)

/-- The fields of slot `i`. -/
def getProc (i : Slot) : KernelM L Proc := do
  let k ← get
  pure (k.procs i)

/-! ## The trapframe -/

abbrev kSpOff : Nat := 0
abbrev kTrapOff : Nat := 4
abbrev kSatpOff : Nat := 8
abbrev uTrapOff : Nat := 12
abbrev epcOff : Nat := 16

/-- `regs[i]` -/
def regOff (i : Nat) : Nat := 20 + 4 * i

abbrev sizeofTrapframe : Nat := 152

/-- `MAKE_SATP` -/
def makeSatp (pa : Nat) : Nat := 2 ^ 31 ||| ((pa >>> 12) &&& 0x003FFFFF)

/-! ## Slots -/

/-- `allocpid` -/
def allocpid : KernelM L Int := do
  let k ← get
  set { k with currPid := succPid k.currPid }
  pure k.currPid

/-- `if (ptr) m();` -/
def ifSet (ptr : Nat) (m : MemM L Unit) : MemM L Unit := if ptr ≠ 0 then m else pure ()

/-- A slot after `releaseproc`. -/
def Proc.reset (p : Proc) : Proc := { p with
  pid := 0, name := Function.update p.name 0 0, pt := 0, kstack := 0, sz := 0, tf := 0
  parent := none, xstate := 0, chan := none, context := ⟨0, 0⟩, state := .unused }

/-- `releaseproc` -/
def releaseproc (i : Slot) : KernelM L Unit := do
  let p ← getProc i
  onMem (ifSet p.tf (kfree p.tf))
  onMem (ifSet p.pt (uvmfree p.pt p.sz))
  onMem (ifSet p.kstack (kfree p.kstack))
  modifyProc i Proc.reset

/-- The first UNUSED slot. -/
def firstUnused (procs : Slot → Proc) : Option Slot :=
  (List.finRange NPROC).find? fun i => (procs i).state = .unused

/-- `procalloc` from the label `fail` on. -/
def procallocFail (i : Slot) : KernelM L (Option Slot) := do
  releaseproc i
  pure none

/-- `procalloc` after a slot has been found. -/
def procallocAt (i : Slot) : KernelM L (Option Slot) := do
  modifyProc i fun p => { p with state := .new }
  let pid ← allocpid
  modifyProc i fun p => { p with pid := pid }
  let kstack ← onMem kalloc
  if kstack = 0 then procallocFail i
  else do
    modifyProc i fun p => { p with kstack := kstack }
    let tf ← onMem kalloc
    modifyProc i fun p => { p with tf := tf }
    if tf = 0 then procallocFail i
    else do
      onMem (memset tf 0 PAGE_SIZE)
      let pt ← onMem initUserpt
      modifyProc i fun p => { p with pt := pt }
      if pt = 0 then procallocFail i
      else do
        modifyProc i fun p => { p with context := ⟨L.forkret, p.kstack + PAGE_SIZE⟩ }
        pure (some i)

def procalloc : KernelM L (Option Slot) := do
  let k ← get
  match firstUnused k.procs with
  | none => pure none
  | some i => procallocAt i

/-! ## `fork`, `wait` and `kexit` -/

/-- `fork` of the process in slot `p`, once slot `np` holds the copy of its memory. -/
def forkFinish (p np : Slot) : KernelM L Int := do
  let pp ← getProc p
  modifyProc np fun q => { q with sz := pp.sz }
  let q ← getProc np
  let childKsp ← onMem (load (q.tf + kSpOff))
  onMem (memmove q.tf pp.tf sizeofTrapframe)
  onMem (store (q.tf + kSpOff) childKsp)
  onMem (store (q.tf + regOff 10) 0)
  modifyProc np fun q => { q with name := pp.name }
  modifyProc np fun q => { q with parent := some p, state := .ready }
  pure q.pid

/-- `fork` of the process in slot `p` -/
def fork (p : Slot) : KernelM L Int := do
  match ← procalloc with
  | none => pure (-1)
  | some np => do
      let pp ← getProc p
      let q ← getProc np
      let r ← onMem (uvmcopy pp.pt q.pt pp.sz)
      if r < 0 then do
        modifyProc np fun q => { q with sz := pp.sz }
        releaseproc np
        pure (-1)
      else forkFinish p np

/-- The bytes of an `int`. -/
def intBytes (v : Int) : List UInt8 := Bytes.ofWord (v % 2 ^ 32).toNat

/-- `wait` passes the exit status on, unless `addr` is 0. -/
def copyStatus (pt addr : Nat) (xstate : Int) : MemM L Int :=
  if addr ≠ 0 then copyout pt addr (intBytes xstate) else pure 0

/-- `wait` of the process in slot `p`, which has found the zombie in slot `q`. -/
def waitReap (p q : Slot) (addr : Nat) : KernelM L Int := do
  let pp ← getProc p
  let z ← getProc q
  let r ← onMem (copyStatus pp.pt addr z.xstate)
  if r < 0 then pure (-1)
  else do
    releaseproc q
    pure z.pid

/-- One pass of `wait` over the slots; `none` where the process goes to sleep. -/
def wait (p : Slot) (addr : Nat) : KernelM L (Option Int) := do
  let k ← get
  match (List.finRange NPROC).find? fun q =>
      (k.procs q).parent = some p ∧ (k.procs q).state = .zombie with
  | some q => do
      let v ← waitReap p q addr
      pure (some v)
  | none =>
      if (List.finRange NPROC).all fun q => (k.procs q).parent ≠ some p then pure (some (-1))
      else do
        modifyProc p fun pp => { pp with chan := some (.proc p), state := .waiting }
        pure none

/-- What `wakeup` does to a slot. -/
def Proc.wake (c : Option Chan) (q : Proc) : Proc :=
  if q.chan = c ∧ q.state = .waiting then { q with state := .ready } else q

/-- `wakeup` -/
def wakeup (c : Option Chan) : KernelM L Unit :=
  modify fun k => { k with procs := fun i => (k.procs i).wake c }

/-- `kexit` gives the child in slot `q` to the reaper; is it a zombie for the reaper
to come and reap? -/
def handOver (q : Slot) (reaper : Option Slot) : KernelM L Bool := do
  modifyProc q fun x => { x with parent := reaper }
  let x ← getProc q
  if x.state = .zombie then
    if reaper = none then do
      releaseproc q
      pure false
    else pure true
  else pure false

/-- `wakeup`, if there is somebody to wake up. -/
def wakeupIf (b : Bool) (c : Option Chan) : KernelM L Unit := if b = true then wakeup c else pure ()

/-- The loop of `kexit` over the children; `gave` is `gave_zombie`. -/
def handOverAll (p : Slot) (reaper : Option Slot) : List Slot → Bool → KernelM L Bool
  | [], gave => pure gave
  | q :: l, gave => do
      let x ← getProc q
      if x.parent = some p then do
        let z ← handOver q reaper
        handOverAll p reaper l (gave || z)
      else handOverAll p reaper l gave

/-- The reaper that `kexit` of the process in slot `p` finds. -/
def findReaper (procs : Slot → Proc) (p : Slot) : Option Slot :=
  (List.finRange NPROC).find? fun q =>
    (procs q).pid = 1 ∧ q ≠ p ∧ (procs q).state ≠ .zombie

/-- `kexit` of the process in slot `p` -/
def kexit (p : Slot) (status : Int) : KernelM L Unit := do
  let pp ← getProc p
  onMem (uvmfree pp.pt pp.sz)
  modifyProc p fun pp => { pp with pt := 0 }
  let k ← get
  let reaper := findReaper k.procs p
  let gaveZombie ← handOverAll p reaper (List.finRange NPROC) false
  wakeupIf gaveZombie (reaper.map .proc)
  let pp ← getProc p
  wakeupIf pp.parent.isSome (pp.parent.map .proc)
  modifyProc p fun pp => { pp with xstate := status, state := .zombie }

/-! ## The first process -/

/-- The slot of `init` at the end of `uvmfirst`. -/
def Proc.asInit (p : Proc) (sz : Nat) : Proc := { p with
  sz := sz
  name := fun j => if j.val < 5 then (cstr "init" ++ [0]).getD j 0 else p.name j
  state := .ready }

/-- `uvmfirst` for the process in slot `i` -/
def uvmfirst (progs : Programs) (i : Slot) (sp : Nat) : KernelM L Unit := do
  match findProgram progs (cstr "init") with
  | none => throw .noInit
  | some img => do
      let p ← getProc i
      let r ← onMem (loadElf p.pt img)
      if r.ret < 0 then throw .loadInit
      else do
        let stack ← onMem kalloc
        if stack = 0 then throw .noStack
        else do
          let pte ← onMem (mappage p.pt stackVa stack (PTE_R ||| PTE_W ||| PTE_U ||| PTE_V))
          if pte = 0 then throw .mapStack
          else do
            let k ← get
            onMem (store (p.tf + epcOff) r.entry)
            onMem (store (p.tf + regOff 2) sp)
            onMem (store (p.tf + kSpOff) (p.kstack + PAGE_SIZE))
            onMem (store (p.tf + kSatpOff) (makeSatp k.kptable))
            onMem (store (p.tf + kTrapOff) L.kerneltrap)
            onMem (store (p.tf + uTrapOff) L.uTrapHandle)
            modifyProc i (·.asInit r.sz)

/-- `init_userproc` -/
def initUserproc (progs : Programs) : KernelM L Unit := do
  match ← procalloc with
  | none => throw .noProc
  | some i => uvmfirst progs i USER_STACK_TOP

end Wl00.Vm
