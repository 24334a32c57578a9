import Wl00.Boot.Refine
import Wl00.Lib.Guarded
import Wl00.Space.Stack

/-!
# Processes with memories of their own

What the kernel is for, said without pages: a process has registers, a program counter and a
memory that is its own.  There is no physical memory here, no page table and no trapframe;
`fork` copies a process, `exec` replaces it by the image of a program, and only what a process
does itself changes its memory.

The table of processes is that of `Wl00.Sched`, and the operations are those of `Wl00.Vm`.
Where memory may run out there, an operation may fail here.

* `Process.exec` — what becomes of a process that calls `exec`, as a function of the process.
* `Step`, `machine` — the operations.
* `Step.other` — an operation that is not the process's own leaves the process as it is.
* `Step.own` — one that is its own has an effect that depends on the process alone.
-/

namespace Wl00.Private

open Vm
open Sched (Slot Table Row IsFirst Effect succPid NPROC)

/-! ## Memories -/

/-- The permissions `flags` of a page have the bits `need`. -/
def Grants (need flags : Nat) : Prop := flags &&& need = need

instance (need : Nat) : DecidablePred (Grants need) :=
  fun flags => inferInstanceAs (Decidable (flags &&& need = need))

/-- The memory of a process: the addresses that are mapped, with `PTE_V`, `PTE_R`, `PTE_W`,
`PTE_X` and `PTE_U` of their pages. -/
abbrev Memory := Guarded Nat

namespace Memory

variable (m : Memory)

/-- Store bytes from `a` on, up to the first address that cannot be written. -/
def store (a : Nat) (l : List UInt8) : Memory := Guarded.store (Grants PTE_W) (2 ^ 32) m a l

/-- The `n` bytes from `a` on can be written. -/
def Writable (a n : Nat) : Prop :=
  ∀ i < n, (Guarded.get (Grants PTE_W) m ((a + i) % 2 ^ 32)).isSome = true

instance (a n : Nat) : Decidable (m.Writable a n) := inferInstanceAs (Decidable (∀ i < n, _))

/-- The string at `a`, with its NUL among the first `max` bytes. -/
def string (max a : Nat) : Option (List UInt8) :=
  Guarded.string (Grants PTE_R) (2 ^ 32) m max a

/-- The word at `a`. -/
def word (a : Nat) : Option Nat :=
  (Guarded.read (Grants PTE_R) (2 ^ 32) m 4 a).map fun l => Bytes.word (fun j => l.getD j 0) 0

/-- The strings whose addresses stand at `a`, up to a 0: at most `n` of them, which with their
NULs have `room`. -/
def args : Nat → Nat → Nat → Option (List (List UInt8))
  | 0, _, a => do
      let w ← m.word a
      if w = 0 then some [] else none
  | n + 1, room, a => do
      let w ← m.word a
      if w = 0 then some []
      else do
        let l ← m.string room w
        let ls ← args n (room - (l.length + 1)) (a + 4)
        some (l :: ls)

/-- The segments of a program, and a page of stack. -/
def ofImage (img : Image) (stack : Bytes) : Memory := fun a =>
  if a / PAGE_SIZE = stackPage then some ⟨PTE_V ||| PTE_R ||| PTE_W ||| PTE_U, stack a⟩
  else if 1 ≤ a / PAGE_SIZE ∧
      a / PAGE_SIZE < (imageEnd (segments img) + (PAGE_SIZE - 1)) / PAGE_SIZE then
    some ⟨imageFlags (segments img) (a / PAGE_SIZE), imageByte img.bytes (segments img) a⟩
  else none

end Memory

/-! ## Processes -/

/-- A process: `x1` to `x31`, the program counter and the memory. -/
structure Process where
  regs : Nat → Nat
  pc : Nat
  mem : Memory

namespace Process

/-- `init`, before its first instruction.  What is on its stack is left open. -/
def start (img : Image) (stack : Bytes) : Process where
  regs i := if i = 2 then USER_STACK_TOP else 0
  pc := (readElfHdr img.bytes).entry
  mem := .ofImage img stack

variable (x : Process)

/-- The child of `fork`. -/
def child : Process := { x with regs := Function.update x.regs 10 0 }

/-- The arguments that `a1` points to. -/
def argv : Option (List (List UInt8)) :=
  if x.regs 11 = 0 then some [] else x.mem.args MAXARG PAGE_SIZE (x.regs 11)

/-- The program `img` with the arguments `strs`. -/
def become (img : Image) (strs : List (List UInt8)) : Process where
  regs := Function.update (Function.update x.regs 2 (arrayAddr strs)) 11 (arrayAddr strs)
  pc := (readElfHdr img.bytes).entry
  mem := .ofImage img (stackImage strs)

/-- **`exec`**: the path is the string that `a0` points to. -/
def exec (progs : Programs) : Option Process := do
  let path ← x.mem.string MAXPATH (x.regs 10)
  let strs ← x.argv
  let img ← findProgram progs path
  if Fits strs then some (x.become img strs) else none

/-- User code has run, or the kernel has returned to it. -/
def resume (epc : Nat) (regs : Nat → Nat) : Process where
  regs i := if 1 ≤ i ∧ i ≤ 31 then regs i % 2 ^ 32 else 0
  pc := epc % 2 ^ 32
  mem := x.mem

/-- Bytes have been stored in the process's memory. -/
def stored (a : Nat) (l : List UInt8) : Process := { x with mem := x.mem.store a l }

end Process

/-! ## The machine -/

/-- `proctable`, `curr_pid` and the processes. -/
structure State where
  rows : Table
  currPid : Int
  procs : Slot → Option Process

namespace State

variable (σ : State) (p : Slot)

/-- Change what the table has of slot `p`. -/
def setRow (f : Row → Row) : State := { σ with rows := Function.update σ.rows p (f (σ.rows p)) }

/-- Change the process in slot `p`. -/
def setProcess (o : Option Process) : State := { σ with procs := Function.update σ.procs p o }

/-- `curr_pid` has been given to somebody. -/
def usePid : State := { σ with currPid := succPid σ.currPid }

end State

/-- Slot `i` is not used. -/
def Unused (T : Table) (i : Slot) : Prop := (T i).state = .unused

/-- Who may do what. -/
def Enabled (T : Table) : Op → Prop
  | .procalloc | .tick => True
  | .fork p | .exec p | .exit p _ | .wait p _ | .yield p | .sleep p | .trap p _ _ | .poke p _ _ =>
      (T p).state = .running
  | .reap q => (T q).state = .zombie ∧ (T q).parent = none
  | .dispatch p => (T p).state = .ready

/-- **What an operation does.** -/
inductive Step (progs : Programs) (σ : State) : Op → State → Prop
  /-- There is no slot. -/
  | procallocFull : (∀ i, ¬Unused σ.rows i) → Step progs σ .procalloc σ
  /-- There is a slot, but no memory: a pid has been used up.  How much memory there is does not
  show here, so this may happen at any time; and so it is with `fork` and `exec`. -/
  | procallocFail (i) : Unused σ.rows i → Step progs σ .procalloc σ.usePid
  | procalloc (i) : IsFirst (Unused σ.rows) i →
      Step progs σ .procalloc
        (σ.setRow i fun r => { r with state := .new, pid := σ.currPid }).usePid
  | forkFull (p) : (∀ i, ¬Unused σ.rows i) → Step progs σ (.fork p) σ
  | forkFail (p i) : Unused σ.rows i → Step progs σ (.fork p) σ.usePid
  /-- The child is a copy of its parent, but for `a0`. -/
  | fork (p i x) : IsFirst (Unused σ.rows) i → σ.procs p = some x →
      Step progs σ (.fork p) ((σ.setRow i fun r =>
        { r with pid := σ.currPid, parent := some p, state := .ready }).setProcess i
          (some x.child)).usePid
  | execFail (p) : Step progs σ (.exec p) σ
  | exec (p x y) : σ.procs p = some x → x.exec progs = some y →
      Step progs σ (.exec p) (σ.setProcess p (some y))
  /-- The memory of a process ends with it. -/
  | exit (p status T v) : Effect p σ.rows σ.currPid (.exit status) none T v →
      Step progs σ (.exit p status) ⟨T, v, Function.update σ.procs p none⟩
  | waitNone (p addr) : (∀ q, ¬σ.rows.Child p q) → Step progs σ (.wait p addr) σ
  | waitSleep (p addr q) : σ.rows.Child p q → (∀ q, ¬σ.rows.Dead p q) →
      Step progs σ (.wait p addr) (σ.setRow p fun r => { r with chan := some (.proc p), state := .waiting })
  | waitReap (p addr q) : addr = 0 → IsFirst (σ.rows.Dead p) q →
      Step progs σ (.wait p addr) (σ.setRow q fun _ => .reset)
  /-- The status goes to `addr`, and the child is gone if all of it could be written. -/
  | waitReport (p) (addr : UInt32) (q x) : addr ≠ 0 → IsFirst (σ.rows.Dead p) q → σ.procs p = some x →
      Step progs σ (.wait p addr)
        ((σ.setRow q fun r => if x.mem.Writable addr.toNat 4 then .reset else r).setProcess p
          (some (x.stored addr.toNat (intBytes (σ.rows q).xstate))))
  | reap (q) : Step progs σ (.reap q) (σ.setRow q fun _ => .reset)
  | dispatch (p) : Step progs σ (.dispatch p) (σ.setRow p fun r => { r with state := .running, chan := none })
  | yield (p) : Step progs σ (.yield p) (σ.setRow p fun r => { r with state := .ready })
  | sleep (p) : Step progs σ (.sleep p)
      (σ.setRow p fun r => { r with chan := some .ticks, state := .waiting })
  | tick : Step progs σ .tick { σ with rows := σ.rows.woken (some .ticks) NPROC }
  | trap (p epc regs x) : σ.procs p = some x →
      Step progs σ (.trap p epc regs) (σ.setProcess p (some (x.resume epc regs)))
  | poke (p) (va : UInt32) (b x) : σ.procs p = some x →
      Step progs σ (.poke p va b) (σ.setProcess p (some (x.stored va.toNat [b])))

/-- The machine: `init` is the only process in the beginning. -/
def machine (progs : Programs) : Lts State Op where
  init σ := σ.rows = bootRows ∧ σ.currPid = 2 ∧
    ∃ stack, ∀ i : Slot, σ.procs i = if i.val = 0 then some (.start progs.init stack) else none
  step σ op σ' := Enabled σ.rows op ∧ Step progs σ op σ'

/-! ## What is a process's own -/

/-- The operation is one by which the process in slot `p` changes itself. -/
def Own (p : Slot) : Op → Prop
  | .exec q | .exit q _ | .wait q _ | .trap q _ _ | .poke q _ _ => q = p
  | _ => False

instance (p : Slot) : DecidablePred (Own p)
  | .exec q | .exit q _ | .wait q _ | .trap q _ _ | .poke q _ _ => inferInstanceAs (Decidable (q = p))
  | .procalloc | .fork _ | .reap _ | .dispatch _ | .yield _ | .sleep _ | .tick => .isFalse id

/-- What a process does itself, with the answer that it gets. -/
inductive Act where
  /-- `exec`, which succeeds or fails -/
  | exec (done : Bool)
  /-- `wait`, which may have the status of a child to report -/
  | wait (addr : UInt32) (status : Option Int)
  | trap (epc : Nat) (regs : Nat → Nat)
  | poke (va : UInt32) (b : UInt8)

/-- The operation of the process in slot `p`. -/
def Act.op (p : Slot) : Act → Op
  | .exec _ => .exec p
  | .wait addr _ => .wait p addr
  | .trap epc regs => .trap p epc regs
  | .poke va b => .poke p va b

/-- What the process has become. -/
def Process.act (progs : Programs) (x : Process) : Act → Process
  | .exec done => if done = true then (x.exec progs).getD x else x
  | .wait addr status => status.elim x fun v => x.stored addr.toNat (intBytes v)
  | .trap epc regs => x.resume epc regs
  | .poke va b => x.stored va.toNat [b]

variable {progs : Programs} {σ σ' : State} {op : Op} {p : Slot}

@[simp] theorem State.setProcess_self (o : Option Process) :
    (σ.setProcess p o).procs p = o := Function.update_self ..

@[simp] theorem State.setProcess_ne {q : Slot} (h : p ≠ q) (o : Option Process) :
    (σ.setProcess q o).procs p = σ.procs p := Function.update_of_ne h ..

@[simp] theorem State.setRow_self (f : Row → Row) : (σ.setRow p f).rows p = f (σ.rows p) :=
  Function.update_self ..

@[simp] theorem State.setRow_ne {q : Slot} (h : p ≠ q) (f : Row → Row) :
    (σ.setRow q f).rows p = σ.rows p := Function.update_of_ne h ..

/-- **An operation that is not its own leaves a process as it is.** -/
theorem Step.other (h : Step progs σ op σ') (ho : ¬Own p op)
    (hp : (σ.procs p).isSome → ¬Unused σ.rows p) (hs : (σ.procs p).isSome) :
    σ'.procs p = σ.procs p := by
  cases h
  case fork q i x hi hx =>
    have hne : p ≠ i := by
      rintro rfl
      exact hp hs hi.1
    exact State.setProcess_ne hne _
  case exec q x y hx hy => exact State.setProcess_ne (Ne.symm ho) _
  case exit q status T v he => exact Function.update_of_ne (Ne.symm ho) ..
  case waitReport q addr j x ha hj hx => exact State.setProcess_ne (Ne.symm ho) _
  case trap q epc regs x hx => exact State.setProcess_ne (Ne.symm ho) _
  case poke q va b x hx => exact State.setProcess_ne (Ne.symm ho) _
  all_goals rfl

/-- **An operation of its own makes of a process what its act says**, unless it exits. -/
theorem Step.own {x : Process} (h : Step progs σ op σ') (ho : Own p op)
    (hexit : ∀ status, op ≠ .exit p status) (hx : σ.procs p = some x) :
    ∃ a : Act, a.op p = op ∧ σ'.procs p = some (x.act progs a) := by
  cases h
  case execFail q =>
    obtain rfl : q = p := ho
    exact ⟨.exec false, rfl, hx⟩
  case exec q y z hy hz =>
    obtain rfl : q = p := ho
    obtain rfl : x = y := Option.some.inj (hx.symm.trans hy)
    refine ⟨.exec true, rfl, (State.setProcess_self _).trans ?_⟩
    rw [Process.act, if_pos rfl, hz, Option.getD_some]
  case exit q status T v he =>
    obtain rfl : q = p := ho
    exact absurd rfl (hexit status)
  case waitNone q addr hno =>
    obtain rfl : q = p := ho
    exact ⟨.wait addr none, rfl, hx⟩
  case waitSleep q addr j hj hno =>
    obtain rfl : q = p := ho
    exact ⟨.wait addr none, rfl, hx⟩
  case waitReap q addr j ha hj =>
    obtain rfl : q = p := ho
    exact ⟨.wait addr none, rfl, hx⟩
  case waitReport q addr j y ha hj hy =>
    obtain rfl : q = p := ho
    obtain rfl : x = y := Option.some.inj (hx.symm.trans hy)
    exact ⟨.wait addr (some (σ.rows j).xstate), rfl, State.setProcess_self _⟩
  case trap q epc regs y hy =>
    obtain rfl : q = p := ho
    obtain rfl : x = y := Option.some.inj (hx.symm.trans hy)
    exact ⟨.trap epc regs, rfl, State.setProcess_self _⟩
  case poke q va b y hy =>
    obtain rfl : q = p := ho
    obtain rfl : x = y := Option.some.inj (hx.symm.trans hy)
    exact ⟨.poke va b, rfl, State.setProcess_self _⟩
  all_goals exact ho.elim

/-- A `fork` by which slot `i` has come into use has put a child there. -/
theorem Step.forked {x : Process} {i : Slot} (h : Step progs σ (.fork p) σ')
    (hi : (σ.rows i).state = .unused) (hi' : (σ'.rows i).state = .ready) (hne : i ≠ p)
    (hx : σ.procs p = some x) : σ'.procs p = some x ∧ σ'.procs i = some x.child := by
  cases h
  case forkFull hfull => exact absurd hi (hfull i)
  case forkFail j hj =>
    rw [State.usePid, hi] at hi'
    cases hi'
  case fork j y hj hy =>
    obtain rfl : x = y := Option.some.inj (hx.symm.trans hy)
    obtain rfl : i = j := by
      by_contra hij
      rw [State.usePid, State.setProcess] at hi'
      dsimp only at hi'
      rw [State.setRow_ne hij, hi] at hi'
      cases hi'
    exact ⟨(State.setProcess_ne hne.symm _).trans hx, State.setProcess_self _⟩

theorem Step.dispatched (h : Step progs σ (.dispatch p) σ') : (σ'.rows p).state = .running ∧
    ∀ q, q ≠ p → (σ'.rows q).state = (σ.rows q).state := by
  cases h
  refine ⟨?_, fun q hq => ?_⟩
  · rw [State.setRow_self]
  · rw [State.setRow_ne hq]

theorem Step.trap_state {epc : Nat} {regs : Nat → Nat} (h : Step progs σ (.trap p epc regs) σ')
    (q : Slot) : (σ'.rows q).state = (σ.rows q).state := by
  cases h
  rfl

theorem Step.exec_state (h : Step progs σ (.exec p) σ') (q : Slot) :
    (σ'.rows q).state = (σ.rows q).state := by
  cases h <;> rfl

end Wl00.Private
