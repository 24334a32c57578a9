import Mathlib.Data.Fin.Basic
import Wl00.Sync.Spinlock
import Wl00.Vm.Write

/-!
# `printf`, `print_lock` and `hang`

The model of `printf`, `error` and `panic` in `kernel/kprint.c`, with the exception branch of
`s_trap_handle`.  Any number of harts call them in any order, and the steps in which they touch
`hang`, `print_lock` or their own `struct cpu` interleave freely.  A kernel exception may hit a
hart at any point, also inside `printf`; the hart then prints what it has to say and stops.
What a call prints is the text of `Vm.printf`.

`printf` tests `hang` twice, before `lock` and before `unlock`.  If another hart sets it in
between, the call returns without `unlock`.

* `printf_leaks` — such a call: the hart is out of `printf` with its interrupts off, at depth 1,
  and it holds `print_lock`.
* `printf_balanced` — a call restores the depth and the interrupts exactly when its two tests
  agree, and a hart holds `print_lock` only inside `printf`, as long as the tests of its calls
  agree.
-/

namespace Wl00.Printf

open Spinlock
open Vm (Arg cstr)

/-! ## The machine -/

/-- Where a call of `printf` stands.  A constructor names the step that comes next. -/
inductive Stage where
  /-- `if (!hang)`, before `lock` -/
  | testLock
  /-- `lock`: `push_off` -/
  | lockPush
  /-- `lock`: `holding` reads `lk->lock` -/
  | lockHolding
  /-- `lock`: `holding` reads `lk->cpu` -/
  | lockHoldingCpu
  /-- `lock`: one attempt of the swap loop -/
  | lockSwap
  /-- `lock`: `lk->cpu = this_cpu()` -/
  | lockSetCpu
  /-- `putchar`, as long as there is something to print -/
  | body
  /-- `if (!hang)`, before `unlock` -/
  | testUnlock
  /-- `unlock`: `holding` reads `lk->lock` -/
  | unlockHolding
  /-- `unlock`: `holding` reads `lk->cpu` -/
  | unlockHoldingCpu
  /-- `unlock`: `lk->cpu = NULL` -/
  | unlockClearCpu
  /-- `unlock`: swap 0 in -/
  | unlockSwap
  /-- `unlock`: `pop_off` -/
  | unlockPop
  /-- the call returns -/
  | ret
  deriving DecidableEq

/-- A call of `printf`.  `entry` is the hart's `struct cpu` on entry, and `first` and `second`
are what the two tests found in `hang`. -/
structure Call where
  text : List UInt8
  stage : Stage
  entry : Cpu
  first : Bool
  second : Bool

/-- What a hart still does before it stops. -/
inductive Task where
  | interruptOff
  | setHang
  | printf (fmt : List UInt8) (args : List Arg)

/-- One hart: its `struct cpu`, the `push_off`s of its program that have no `pop_off` yet, the
call of `printf` that it executes, and its last tasks once it is to stop.  `frozen` are the
calls that it was in when something fatal happened, and `split` says that it has returned from
a call whose tests differed. -/
structure Core where
  cpu : Cpu
  own : Nat
  call : Option Call
  last : Option (List Task)
  frozen : List Call
  split : Bool

namespace Core

/-- The calls of `printf` that have begun and not returned. -/
def calls (x : Core) : List Call := x.call.toList ++ x.frozen

/-- The call moves on. -/
def goto (x : Core) (c : Call) (p : Stage) : Core := { x with call := some { c with stage := p } }

/-- `printf` is called. -/
def enter (x : Core) (text : List UInt8) : Core :=
  { x with call := some ⟨text, .testLock, x.cpu, false, false⟩ }

/-- Something fatal: what the hart was doing is given up for `tasks`. -/
def stop (x : Core) (tasks : List Task) : Core :=
  { x with call := none, last := some tasks, frozen := x.calls }

end Core

/-- `hang`, `print_lock`, what has been printed, and the harts.  `holder` is a history variable:
the hart whose successful swap has not been followed by its releasing swap. -/
structure State (n : Nat) where
  hang : Bool
  lk : Spin (Fin n)
  uart : List UInt8
  core : Fin n → Core
  holder : Option (Fin n)

variable {n : Nat}

def State.set (s : State n) (h : Fin n) (x : Core) : State n :=
  { s with core := Function.update s.core h x }

/-- `panic` -/
def panic (h : Fin n) (str : List UInt8) : List Task :=
  [.interruptOff, .setHang,
    .printf (cstr "KERNEL PANIC (cpu %d): %s\n") [.word h, .str str]]

/-- The texts of the panics in `spinlock.c`. -/
def panicText : Panic → List UInt8
  | .lockLocked => cstr "trying to lock locked spinlock"
  | .unlockUnlocked => cstr "trying to release unlocked spinlock"
  | .popInterruptable => cstr "pop_off - interruptable"
  | .popDepth => cstr "push_off depth less than 1"

/-- `s_trap_handle`, once it knows that there was an exception -/
def exception (h : Fin n) (scause sepc stval : Nat) : List Task :=
  [.setHang, .printf (cstr "scause: %p\n") [.word scause],
    .printf (cstr "sepc:   %p\n") [.word sepc],
    .printf (cstr "stval:  %p (Bad Address)\n") [.word stval]] ++
    panic h (cstr "unhandled exception in kernel")

/-- `s_trap_handle`, once it knows that no device asked for the interrupt -/
def unexpected (h : Fin n) (scause sepc : Nat) : List Task :=
  .printf (cstr "unexpected interrupt: scause %p, sepc %p\n") [.word scause, .word sepc] ::
    panic h (cstr "s_trap_handle")

/-- The way into `s_trap_handle`: the hardware turns interrupts off, and `myproc` calls
`push_off` and `pop_off`. -/
def trapped (c : Cpu) : Cpu :=
  match popOff (pushOff { c with sie := false }) with
  | .ok c' => c'
  | .error _ => { c with sie := false }

/-- The next step of the call `c` on hart `h`. -/
def goCall (s : State n) (h : Fin n) (c : Call) : State n :=
  let x := s.core h
  let fail (m : Panic) := s.set h (x.stop (panic h (panicText m)))
  match c.stage with
  | .testLock =>
      if s.hang then s.set h (x.goto { c with first := true } .body)
      else s.set h (x.goto { c with first := false } .lockPush)
  | .lockPush => s.set h ({ x with cpu := pushOff x.cpu }.goto c .lockHolding)
  | .lockHolding =>
      if s.lk.lock ≠ 0 then s.set h (x.goto c .lockHoldingCpu) else s.set h (x.goto c .lockSwap)
  | .lockHoldingCpu =>
      if s.lk.cpu = some h then fail .lockLocked else s.set h (x.goto c .lockSwap)
  | .lockSwap =>
      let (old, lk) := atomicSwap s.lk 1
      if old ≠ 0 then { s with lk := lk }
      else { s with lk := lk, holder := some h }.set h (x.goto c .lockSetCpu)
  | .lockSetCpu => { s with lk := { s.lk with cpu := some h } }.set h (x.goto c .body)
  | .body =>
      match c.text with
      | [] => s.set h (x.goto c .testUnlock)
      | ch :: text => { s with uart := s.uart ++ [ch] }.set h (x.goto { c with text := text } .body)
  | .testUnlock =>
      if s.hang then s.set h (x.goto { c with second := true } .ret)
      else s.set h (x.goto { c with second := false } .unlockHolding)
  | .unlockHolding =>
      if s.lk.lock ≠ 0 then s.set h (x.goto c .unlockHoldingCpu) else fail .unlockUnlocked
  | .unlockHoldingCpu =>
      if s.lk.cpu = some h then s.set h (x.goto c .unlockClearCpu) else fail .unlockUnlocked
  | .unlockClearCpu => { s with lk := { s.lk with cpu := none } }.set h (x.goto c .unlockSwap)
  | .unlockSwap =>
      { s with lk := (atomicSwap s.lk 0).2, holder := none }.set h (x.goto c .unlockPop)
  | .unlockPop =>
      match popOff x.cpu with
      | .ok c' => s.set h ({ x with cpu := c' }.goto c .ret)
      | .error m => fail m
  | .ret => s.set h { x with call := none, split := x.split || c.first != c.second }

/-- The next of the last tasks of hart `h`; after them comes `while (1)`. -/
def goLast (s : State n) (h : Fin n) : List Task → Option (State n)
  | [] => none
  | .interruptOff :: ts =>
      some (s.set h { s.core h with cpu := { (s.core h).cpu with sie := false }, last := some ts })
  | .setHang :: ts => some ({ s with hang := true }.set h { s.core h with last := some ts })
  | .printf fmt args :: ts =>
      some (s.set h ({ s.core h with last := some ts }.enter (Vm.printf fmt args)))

/-- What may happen on a hart. -/
inductive Act where
  | printf (fmt : List UInt8) (args : List Arg)
  | error (str : List UInt8)
  | panic (str : List UInt8)
  /-- The program's own calls, for locks other than `print_lock` and in `myproc`. -/
  | pushOff
  | popOff
  | interruptOn
  | interruptOff
  /-- An interrupt that is handled. -/
  | interrupt (intena : Bool)
  | unexpected (scause sepc : Nat)
  | exception (scause sepc stval : Nat)
  /-- The next step of what the hart is in. -/
  | go

/-- A hart in its own program, outside `printf`. -/
def Core.idle (x : Core) : Bool := x.call.isNone && x.last.isNone

/-- One step of hart `h`.  The programs call `pop_off` only after a `push_off` of theirs, and
enable interrupts only when there is none to undo.  An interrupt that the kernel handles comes
back to where it was, on this hart or on another one with the same depth and interrupts on; all
it may have changed is `intena`. -/
def next (s : State n) (h : Fin n) (a : Act) : Option (State n) :=
  let x := s.core h
  match a with
  | .printf fmt args => if x.idle then some (s.set h (x.enter (Vm.printf fmt args))) else none
  | .error str =>
      if x.idle then some (s.set h (x.enter (Vm.printf (cstr "error: %s\n") [.str str]))) else none
  | .panic str => if x.idle then some (s.set h (x.stop (panic h str))) else none
  | .pushOff =>
      if x.idle then some (s.set h { x with cpu := pushOff x.cpu, own := x.own + 1 }) else none
  | .popOff =>
      if x.idle ∧ x.own ≠ 0 then
        match popOff x.cpu with
        | .ok c => some (s.set h { x with cpu := c, own := x.own - 1 })
        | .error m => some (s.set h (x.stop (panic h (panicText m))))
      else none
  | .interruptOn =>
      if x.idle ∧ x.own = 0 then some (s.set h { x with cpu := { x.cpu with sie := true } })
      else none
  | .interruptOff =>
      if x.idle then some (s.set h { x with cpu := { x.cpu with sie := false } }) else none
  | .interrupt b =>
      if x.cpu.sie then some (s.set h { x with cpu := { x.cpu with intena := b } }) else none
  | .unexpected scause sepc =>
      if x.cpu.sie then
        some (s.set h ({ x with cpu := trapped x.cpu }.stop (unexpected h scause sepc)))
      else none
  | .exception scause sepc stval =>
      some (s.set h ({ x with cpu := trapped x.cpu }.stop (exception h scause sepc stval)))
  | .go =>
      match x.call with
      | some c => some (goCall s h c)
      | none => x.last.bind (goLast s h)

variable (n) in
/-- The harts over a fresh `print_lock`, with any interrupt bits. -/
def system : Lts (State n) (Fin n × Act) :=
  .ofNext
    (fun s => s.hang = false ∧ s.lk = initLock ∧ s.holder = none ∧ ∀ h, (s.core h).cpu.depth = 0 ∧
      (s.core h).own = 0 ∧ (s.core h).call = none ∧ (s.core h).last = none ∧
      (s.core h).frozen = [] ∧ (s.core h).split = false)
    (fun s a => next s a.1 a.2)

/-! ## The invariant -/

namespace Call

/-- The `push_off` of `lock` is in force. -/
def pushed (c : Call) : Bool :=
  match c.stage with
  | .testLock | .lockPush => false
  | .lockHolding | .lockHoldingCpu | .lockSwap | .lockSetCpu => true
  | .body | .testUnlock => !c.first
  | .unlockHolding | .unlockHoldingCpu | .unlockClearCpu | .unlockSwap | .unlockPop => true
  | .ret => c.first != c.second

/-- The call has taken `print_lock` and not given it back. -/
def locked (c : Call) : Bool :=
  match c.stage with
  | .testLock | .lockPush | .lockHolding | .lockHoldingCpu | .lockSwap | .unlockPop => false
  | .lockSetCpu | .unlockHolding | .unlockHoldingCpu | .unlockClearCpu | .unlockSwap => true
  | .body | .testUnlock => !c.first
  | .ret => c.first != c.second

/-- The call is on its way to the body. -/
def early (c : Call) : Bool :=
  match c.stage with
  | .testLock | .lockPush | .lockHolding | .lockHoldingCpu | .lockSwap | .lockSetCpu => true
  | _ => false

/-- The call is in `unlock`. -/
def late (c : Call) : Bool :=
  match c.stage with
  | .unlockHolding | .unlockHoldingCpu | .unlockClearCpu | .unlockSwap | .unlockPop => true
  | _ => false

end Call

/-- `push_off` and `pop_off` around a call bring this back. -/
def Sane (c : Cpu) : Prop := 0 ≤ c.depth ∧ (0 < c.depth → c.sie = false)

/-- The depth and the interrupts are as on entry. -/
def Same (entry c : Cpu) : Prop := c.depth = entry.depth ∧ c.sie = entry.sie

/-- One `push_off` has happened since the entry. -/
structure Pushed (entry c : Cpu) : Prop where
  sane : Sane entry
  depth : c.depth = entry.depth + 1
  sie : c.sie = false
  intena : entry.depth = 0 → c.intena = entry.sie

theorem pushed_pushOff {entry c : Cpu} (hs : Sane entry) (h : Same entry c) :
    Pushed entry (pushOff c) where
  sane := hs
  depth := congrArg (· + 1) h.1
  sie := rfl
  intena h0 := by
    rw [pushOff, if_pos (h.1.trans h0)]
    exact h.2

/-- `pop_off` undoes `push_off`. -/
theorem Pushed.popOff {entry c c' : Cpu} (h : Pushed entry c) (hp : popOff c = .ok c') :
    Same entry c' := by
  obtain ⟨⟨hnn, hoff⟩, hd, hs, hi⟩ := h
  rw [Spinlock.popOff, if_neg (by simp [hs]), if_neg (by omega)] at hp
  cases hp
  refine ⟨by simp only; omega, ?_⟩
  simp only
  by_cases h0 : entry.depth = 0
  · have h1 : c.depth - 1 = 0 := by omega
    rw [hi h0, hs]
    cases he : entry.sie with
    | false => exact if_neg (by simp)
    | true => exact if_pos ⟨h1, rfl⟩
  · rw [if_neg (by omega), hs, hoff (by omega)]

/-- What is known of a call that is being executed. -/
structure Call.Ok (c : Call) (cpu : Cpu) (hang : Bool) : Prop where
  same : c.pushed = false → Same c.entry cpu
  pushed : c.pushed = true → Pushed c.entry cpu
  sane : c.stage = .lockPush → Sane c.entry
  early : c.early = true → c.first = false
  late : c.late = true → c.first = false ∧ c.second = false
  hang : c.first = true ∨ c.second = true → hang = true

/-- The call goes on to stage `p`, and nothing happens to the hart's `struct cpu`. -/
theorem Call.Ok.goto {c : Call} {cpu : Cpu} {hang : Bool} (hok : c.Ok cpu hang) {p : Stage}
    (hp : ({ c with stage := p } : Call).pushed = c.pushed) (hs : p ≠ .lockPush)
    (he : ({ c with stage := p } : Call).early = true → c.early = true)
    (hl : ({ c with stage := p } : Call).late = true → c.late = true) :
    ({ c with stage := p } : Call).Ok cpu hang where
  same h := hok.same (hp ▸ h)
  pushed h := hok.pushed (hp ▸ h)
  sane h := absurd h hs
  early h := hok.early (he h)
  late h := hok.late (hl h)
  hang := hok.hang

/-- To go on to stage `p` is of no consequence. -/
def Call.Quiet (c : Call) (p : Stage) : Prop :=
  ({ c with stage := p } : Call).pushed = c.pushed ∧ p ≠ .lockPush ∧
    (({ c with stage := p } : Call).early = true → c.early = true) ∧
    (({ c with stage := p } : Call).late = true → c.late = true) ∧
    ({ c with stage := p } : Call).locked = c.locked

/-- What is known of a hart, where `holds` says that it holds `print_lock`. -/
structure CoreOk (hang : Bool) (holds : Prop) (x : Core) : Prop where
  nonneg : 0 ≤ x.cpu.depth
  off : hang = false → 0 < x.cpu.depth → x.cpu.sie = false
  own : x.call = none → x.last = none → hang = false → x.cpu.depth = x.own
  entry : ∀ c, x.call = some c → x.last = none → hang = false → c.entry.depth = x.own
  call : ∀ c, x.call = some c → c.Ok x.cpu hang
  alone : ∀ c, x.call = some c → c.locked = true → ∀ d ∈ x.frozen, d.locked = false
  locked : ∀ c ∈ x.calls, c.locked = true → holds
  held : holds → x.split = true ∨ ∃ c ∈ x.calls, c.locked = true

structure Inv (s : State n) : Prop where
  word : s.lk.lock ≠ 0 ↔ ∃ h, s.holder = some h
  core : ∀ h, CoreOk s.hang (s.holder = some h) (s.core h)

/-! ### What a hart may do -/

namespace CoreOk

variable {hang : Bool} {holds holds' : Prop} {x : Core} {c c' : Call} {cpu : Cpu}

theorem calls_none (hc : x.call = none) : x.calls = x.frozen := by
  rw [Core.calls, hc]
  rfl

theorem calls_some (hc : x.call = some c) : x.calls = c :: x.frozen := by
  rw [Core.calls, hc]
  rfl

/-- What other harts do. -/
theorem mono {hang' : Bool} (hx : CoreOk hang holds x) (hh : hang = true → hang' = true)
    (hiff : holds' ↔ holds) : CoreOk hang' holds' x := by
  have hback : hang' = false → hang = false := by
    intro h'
    cases hang with
    | false => rfl
    | true => rw [hh rfl] at h'; cases h'
  refine ⟨hx.nonneg, fun h => hx.off (hback h), fun h1 h2 h => hx.own h1 h2 (hback h),
    fun c h1 h2 h => hx.entry c h1 h2 (hback h), fun c hc => ?_, hx.alone,
    fun c hc hl => hiff.2 (hx.locked c hc hl), fun h => hx.held (hiff.1 h)⟩
  obtain ⟨h1, h2, h3, h4, h5, h6⟩ := hx.call c hc
  exact ⟨h1, h2, h3, h4, h5, fun hf => hh (h6 hf)⟩

/-- The call that the hart executes moves on. -/
theorem setCall (hx : CoreOk hang holds x) (hc : x.call = some c) (hok : c'.Ok cpu hang)
    (he : c'.entry = c.entry) (hnn : 0 ≤ cpu.depth)
    (hoff : hang = false → 0 < cpu.depth → cpu.sie = false)
    (halone : c'.locked = true → ∀ d ∈ x.frozen, d.locked = false)
    (hlocked : ∀ d ∈ c' :: x.frozen, d.locked = true → holds')
    (hheld : holds' → x.split = true ∨ ∃ d ∈ c' :: x.frozen, d.locked = true) :
    CoreOk hang holds' { x with cpu := cpu, call := some c' } where
  nonneg := hnn
  off := hoff
  own h := by cases h
  entry d hd hl hh := by
    cases hd
    exact he ▸ hx.entry c hc hl hh
  call d hd := by
    cases hd
    exact hok
  alone d hd := by
    cases hd
    exact halone
  locked := hlocked
  held := hheld

/-- The call moves on, and `print_lock` has nothing to do with it. -/
theorem move (hx : CoreOk hang holds x) (hc : x.call = some c) (hok : c'.Ok cpu hang)
    (he : c'.entry = c.entry) (hl : c'.locked = c.locked) (hnn : 0 ≤ cpu.depth)
    (hoff : hang = false → 0 < cpu.depth → cpu.sie = false) :
    CoreOk hang holds { x with cpu := cpu, call := some c' } := by
  have hlocked := hx.locked
  have hheld := hx.held
  rw [calls_some hc] at hlocked hheld
  refine hx.setCall hc hok he hnn hoff (fun h => hx.alone c hc (hl ▸ h)) ?_ fun h => ?_
  · intro d hd hdl
    rcases List.mem_cons.1 hd with rfl | hd
    · exact hlocked c List.mem_cons_self (hl ▸ hdl)
    · exact hlocked d (List.mem_cons_of_mem _ hd) hdl
  · refine (hheld h).imp_right ?_
    rintro ⟨d, hd, hdl⟩
    rcases List.mem_cons.1 hd with rfl | hd
    · exact ⟨c', List.mem_cons_self, hl.trans hdl⟩
    · exact ⟨d, List.mem_cons_of_mem _ hd, hdl⟩

/-- The call takes `print_lock`. -/
theorem take (hx : CoreOk hang holds x) (hc : x.call = some c) (hok : c'.Ok x.cpu hang)
    (he : c'.entry = c.entry) (hfree : ¬holds) (hl : c'.locked = true) (hholds : holds') :
    CoreOk hang holds' { x with call := some c' } := by
  have hfrozen : ∀ d ∈ x.frozen, d.locked = false := by
    intro d hd
    rw [← Bool.not_eq_true]
    refine fun hdl => hfree (hx.locked d ?_ hdl)
    rw [calls_some hc]
    exact List.mem_cons_of_mem _ hd
  exact hx.setCall hc hok he hx.nonneg hx.off (fun _ => hfrozen) (fun _ _ _ => hholds)
    fun _ => .inr ⟨c', List.mem_cons_self, hl⟩

/-- The call gives `print_lock` back. -/
theorem giveBack (hx : CoreOk hang holds x) (hc : x.call = some c) (hok : c'.Ok x.cpu hang)
    (he : c'.entry = c.entry) (hl : c.locked = true) (hl' : c'.locked = false) (hfree : ¬holds') :
    CoreOk hang holds' { x with call := some c' } := by
  refine hx.setCall hc hok he hx.nonneg hx.off (fun h => ?_) (fun d hd hdl => ?_)
    fun h => absurd h hfree
  · rw [hl'] at h
    cases h
  · rcases List.mem_cons.1 hd with rfl | hd
    · rw [hl'] at hdl
      cases hdl
    · rw [hx.alone c hc hl d hd] at hdl
      cases hdl

/-- The call returns. -/
theorem leave (hx : CoreOk hang holds x) (hc : x.call = some c) (hr : c.stage = .ret) :
    CoreOk hang holds { x with call := none, split := x.split || c.first != c.second } := by
  have hlocked := hx.locked
  have hheld := hx.held
  have hlock : c.locked = (c.first != c.second) := by rw [Call.locked, hr]
  rw [calls_some hc] at hlocked hheld
  constructor
  case nonneg => exact hx.nonneg
  case off => exact hx.off
  case own =>
    -- `hang` has not been set yet, so both tests found it 0
    intro _ hlast hh
    obtain ⟨hsame, -, -, -, -, hhang⟩ := hx.call c hc
    have hagree : ¬(c.first = true ∨ c.second = true) := by
      intro hf
      rw [hhang hf] at hh
      cases hh
    rw [not_or, Bool.not_eq_true, Bool.not_eq_true] at hagree
    have hp : c.pushed = false := by
      rw [Call.pushed, hr, hagree.1, hagree.2]
      rfl
    exact (hsame hp).1.trans (hx.entry c hc hlast hh)
  case entry => exact fun d hd => nomatch hd
  case call => exact fun d hd => nomatch hd
  case alone => exact fun d hd => nomatch hd
  case locked => exact fun d hd => hlocked d (List.mem_cons_of_mem _ hd)
  case held =>
    intro h
    rcases hheld h with hs | ⟨d, hd, hdl⟩
    · exact .inl (by rw [hs]; rfl)
    · rcases List.mem_cons.1 hd with rfl | hd
      · refine .inl ?_
        rw [← hlock, hdl, Bool.or_true]
      · exact .inr ⟨d, hd, hdl⟩

/-- `printf` is called. -/
theorem enter (hx : CoreOk hang holds x) (hc : x.call = none) (text : List UInt8) :
    CoreOk hang holds (x.enter text) := by
  have hlocked := hx.locked
  have hheld := hx.held
  rw [calls_none hc] at hlocked hheld
  refine ⟨hx.nonneg, hx.off, fun h => (nomatch h), fun d hd hlast hh => ?_, fun d hd => ?_,
    fun d hd hl => ?_, fun d hd hl => ?_, fun h => ?_⟩
  · cases hd
    exact hx.own hc hlast hh
  · cases hd
    exact ⟨fun _ => ⟨rfl, rfl⟩, fun h => (nomatch h), fun h => (nomatch h), fun _ => rfl,
      fun h => (nomatch h), fun h => h.elim (fun h => nomatch h) fun h => nomatch h⟩
  · cases hd
    cases hl
  · rcases List.mem_cons.1 hd with rfl | hd
    · cases hl
    · exact hlocked d hd hl
  · refine (hheld h).imp_right ?_
    rintro ⟨d, hd, hdl⟩
    exact ⟨d, List.mem_cons_of_mem _ hd, hdl⟩

/-- Something fatal happens. -/
theorem stop (hx : CoreOk hang holds x) (hnn : 0 ≤ cpu.depth)
    (hoff : hang = false → 0 < cpu.depth → cpu.sie = false) (ts : List Task) :
    CoreOk hang holds ({ x with cpu := cpu }.stop ts) where
  nonneg := hnn
  off := hoff
  own _ hl := by cases hl
  entry _ hd := by cases hd
  call _ hd := by cases hd
  alone _ hd := by cases hd
  locked := hx.locked
  held := hx.held

/-- Outside `printf`. -/
theorem setCpu {own : Nat} {last : Option (List Task)} (hx : CoreOk hang holds x)
    (hc : x.call = none) (hnn : 0 ≤ cpu.depth)
    (hoff : hang = false → 0 < cpu.depth → cpu.sie = false)
    (hown : last = none → hang = false → cpu.depth = own) :
    CoreOk hang holds { x with cpu := cpu, own := own, last := last } where
  nonneg := hnn
  off := hoff
  own _ := hown
  entry d hd := by
    rw [hc] at hd
    cases hd
  call d hd := by
    rw [hc] at hd
    cases hd
  alone d hd := by
    rw [hc] at hd
    cases hd
  locked := hx.locked
  held := hx.held

/-- An interrupt is handled. -/
theorem setIntena (hx : CoreOk hang holds x) (hs : x.cpu.sie = true) (b : Bool) :
    CoreOk hang holds { x with cpu := { x.cpu with intena := b } } := by
  refine ⟨hx.nonneg, hx.off, hx.own, hx.entry, fun c hc => ?_, hx.alone, hx.locked, hx.held⟩
  obtain ⟨hsame, hpushed, h3, h4, h5, h6⟩ := hx.call c hc
  refine ⟨hsame, fun hp => ?_, h3, h4, h5, h6⟩
  -- interrupts are off once `push_off` has happened
  rw [(hpushed hp).sie] at hs
  cases hs

end CoreOk

theorem trapped_depth {c : Cpu} (h : 0 ≤ c.depth) :
    (trapped c).depth = c.depth ∧ (trapped c).sie = false := by
  have hp : Spinlock.popOff (pushOff { c with sie := false }) =
      .ok { depth := c.depth, intena := if c.depth = 0 then false else c.intena, sie := false } := by
    rw [Spinlock.popOff, if_neg (by simp [pushOff]), if_neg (by simp only [pushOff]; omega)]
    simp only [pushOff, Int.add_sub_cancel]
    by_cases h0 : c.depth = 0 <;> simp [h0]
  rw [trapped, hp]
  exact ⟨rfl, rfl⟩

theorem popOff_depth {c c' : Cpu} (hp : Spinlock.popOff c = .ok c') :
    0 ≤ c'.depth ∧ c'.depth = c.depth - 1 ∧ (0 < c'.depth → c'.sie = false) := by
  rw [Spinlock.popOff] at hp
  split at hp
  · cases hp
  · next hs =>
    split at hp
    · cases hp
    · next hd =>
      cases hp
      simp only
      refine ⟨by omega, trivial, fun h0 => ?_⟩
      rw [if_neg (by omega)]
      simpa using hs

namespace Inv

variable {s s' : State n} {h : Fin n} {x : Core}

/-- Only hart `h` does something. -/
theorem update (hi : Inv s) (hw : s'.lk.lock ≠ 0 ↔ ∃ h, s'.holder = some h)
    (hc : s'.core = Function.update s.core h x) (hx : CoreOk s'.hang (s'.holder = some h) x)
    (ho : ∀ h', h' ≠ h → (s'.holder = some h' ↔ s.holder = some h'))
    (hh : s.hang = true → s'.hang = true) : Inv s' := by
  refine ⟨hw, fun h' => ?_⟩
  rw [hc]
  by_cases he : h' = h
  · subst he
    rwa [Function.update_self]
  · rw [Function.update_of_ne he]
    exact (hi.core h').mono hh (ho h' he)

theorem set (hi : Inv s) (hx : CoreOk s.hang (s.holder = some h) x) : Inv (s.set h x) :=
  hi.update hi.word rfl hx (fun _ _ => Iff.rfl) id

/-- The call of hart `h` moves on and leaves `print_lock` alone. -/
theorem goto (hi : Inv s) {c c' : Call} (hc : (s.core h).call = some c) {cpu : Cpu}
    (hok : c'.Ok cpu s.hang) (he : c'.entry = c.entry) (hl : c'.locked = c.locked)
    (hnn : 0 ≤ cpu.depth) (hoff : s.hang = false → 0 < cpu.depth → cpu.sie = false) :
    Inv (s.set h { s.core h with cpu := cpu, call := some c' }) :=
  hi.set ((hi.core h).move hc hok he hl hnn hoff)

/-- It only moves on. -/
theorem quiet (hi : Inv s) {c : Call} (hc : (s.core h).call = some c) {p : Stage} (hq : c.Quiet p) :
    Inv (s.set h ((s.core h).goto c p)) := by
  obtain ⟨hp, hs, he, hl, hk⟩ := hq
  exact hi.goto hc (((hi.core h).call c hc).goto hp hs he hl) rfl hk (hi.core h).nonneg (hi.core h).off

theorem stop (hi : Inv s) (ts : List Task) : Inv (s.set h ((s.core h).stop ts)) :=
  hi.set ((hi.core h).stop (hi.core h).nonneg (hi.core h).off ts)

variable {c : Call}

/-- The first test of `hang`. -/
theorem testLock (hi : Inv s) (hc : (s.core h).call = some c) (hst : c.stage = .testLock) :
    Inv (goCall s h c) := by
  have hok := (hi.core h).call c hc
  have hnn := (hi.core h).nonneg
  have hoff := (hi.core h).off
  simp only [goCall, hst]
  have hsame := hok.same (by rw [Call.pushed, hst])
  cases hh : s.hang with
  | true =>
      rw [if_pos rfl]
      refine hi.goto hc ⟨fun _ => hsame, fun h => absurd h Bool.false_ne_true,
        fun h => absurd h (by simp), fun h => absurd h Bool.false_ne_true,
        fun h => absurd h Bool.false_ne_true, fun _ => hh⟩ rfl ?_ hnn hoff
      rw [Call.locked, Call.locked, hst]
      rfl
  | false =>
      have hsane : Sane c.entry := by
        rw [Sane, ← hsame.1, ← hsame.2]
        exact ⟨hnn, hoff hh⟩
      rw [if_neg (by decide)]
      refine hi.goto hc ⟨fun _ => hsame, fun h => absurd h Bool.false_ne_true, fun _ => hsane,
        fun _ => rfl, fun h => absurd h Bool.false_ne_true,
        fun h => hok.hang (h.imp_left fun h => absurd h Bool.false_ne_true)⟩ rfl ?_ hnn hoff
      rw [Call.locked, Call.locked, hst]

theorem lockPush (hi : Inv s) (hc : (s.core h).call = some c) (hst : c.stage = .lockPush) :
    Inv (goCall s h c) := by
  have hok := (hi.core h).call c hc
  simp only [goCall, hst]
  have hpush := pushed_pushOff (hok.sane hst) (hok.same (by rw [Call.pushed, hst]))
  have hfirst := hok.early (by rw [Call.early, hst])
  refine hi.goto hc ⟨fun h => absurd h.symm Bool.false_ne_true, fun _ => hpush,
    fun h => absurd h (by simp), fun _ => hfirst, fun h => absurd h Bool.false_ne_true,
    hok.hang⟩ rfl ?_ ?_ fun _ _ => rfl
  · rw [Call.locked, Call.locked, hst]
  · rw [hpush.depth]
    have := hpush.sane.1
    omega

/-- One attempt of the swap loop. -/
theorem lockSwap (hi : Inv s) (hc : (s.core h).call = some c) (hst : c.stage = .lockSwap) :
    Inv (goCall s h c) := by
  have hx := hi.core h
  have hok := (hi.core h).call c hc
  simp only [goCall, hst]
  change Inv (if s.lk.lock ≠ 0 then { s with lk := { s.lk with lock := 1 } }
    else ({ s with lk := { s.lk with lock := 1 }, holder := some h } : State n).set h
      ((s.core h).goto c .lockSetCpu))
  by_cases h0 : s.lk.lock ≠ 0
  · rw [if_pos h0]
    exact ⟨⟨fun _ => hi.word.1 h0, fun _ => one_ne_zero⟩, hi.core⟩
  · rw [if_neg h0]
    have hfree : ∀ h', s.holder ≠ some h' := fun h' hh => h0 (hi.word.2 ⟨h', hh⟩)
    refine hi.update (x := (s.core h).goto c .lockSetCpu) ?_ rfl ?_ ?_ id
    · exact ⟨fun _ => ⟨h, rfl⟩, fun _ => one_ne_zero⟩
    · refine hx.take hc (hok.goto ?_ (by decide) ?_ ?_) rfl (hfree h) rfl rfl <;>
        simp [Call.pushed, Call.early, Call.late, hst]
    · intro h' hne
      simp only [State.set, Option.some.injEq]
      exact ⟨fun heq => absurd heq.symm hne, fun heq => absurd heq (hfree h')⟩

/-- The second test of `hang`. -/
theorem testUnlock (hi : Inv s) (hc : (s.core h).call = some c) (hst : c.stage = .testUnlock) :
    Inv (goCall s h c) := by
  have hok := (hi.core h).call c hc
  have hnn := (hi.core h).nonneg
  have hoff := (hi.core h).off
  simp only [goCall, hst]
  cases hh : s.hang with
  | true =>
      -- without `unlock`: if `lock` was called, this is the leak
      have hp : ({ c with second := true, stage := .ret } : Call).pushed = c.pushed := by
        simp [Call.pushed, hst]
      rw [if_pos rfl]
      refine hi.goto hc ⟨fun h => hok.same (hp ▸ h), fun h => hok.pushed (hp ▸ h),
        fun h => absurd h (by simp), fun h => absurd h Bool.false_ne_true,
        fun h => absurd h Bool.false_ne_true, fun _ => hh⟩ rfl ?_ hnn hoff
      simp [Call.locked, hst]
  | false =>
      have hfirst : c.first = false := by
        rw [← Bool.not_eq_true]
        intro hf
        rw [hok.hang (.inl hf)] at hh
        cases hh
      have hpush := hok.pushed (by rw [Call.pushed, hst, hfirst]; rfl)
      rw [if_neg (by decide)]
      refine hi.goto hc ⟨fun h => absurd h.symm Bool.false_ne_true, fun _ => hpush,
        fun h => absurd h (by simp), fun h => absurd h Bool.false_ne_true,
        fun _ => ⟨hfirst, rfl⟩,
        fun h => hok.hang (h.imp_right fun h => absurd h Bool.false_ne_true)⟩ rfl ?_ hnn hoff
      simp [Call.locked, hst, hfirst]

theorem unlockSwap (hi : Inv s) (hc : (s.core h).call = some c) (hst : c.stage = .unlockSwap) :
    Inv (goCall s h c) := by
  have hx := hi.core h
  have hok := (hi.core h).call c hc
  simp only [goCall, hst]
  have hlock : c.locked = true := by rw [Call.locked, hst]
  have hmine : s.holder = some h :=
    hx.locked c (by rw [CoreOk.calls_some hc]; exact List.mem_cons_self) hlock
  refine hi.update (x := (s.core h).goto c .unlockPop) ?_ rfl ?_ ?_ id
  · simp [atomicSwap, State.set]
  · refine hx.giveBack hc (hok.goto ?_ (by decide) ?_ ?_) rfl hlock rfl (by simp [State.set]) <;>
      simp [Call.pushed, Call.early, Call.late, hst]
  · intro h' hne
    rw [hmine]
    simp only [State.set, reduceCtorEq, Option.some.injEq, false_iff]
    exact fun heq => hne heq.symm

theorem unlockPop (hi : Inv s) (hc : (s.core h).call = some c) (hst : c.stage = .unlockPop) :
    Inv (goCall s h c) := by
  have hok := (hi.core h).call c hc
  simp only [goCall, hst]
  have hpush := hok.pushed (by rw [Call.pushed, hst])
  have hagree := hok.late (by rw [Call.late, hst])
  cases hp : Spinlock.popOff (s.core h).cpu with
  | error m => exact hi.stop _
  | ok cpu =>
      have hd := popOff_depth hp
      refine hi.goto hc ⟨fun _ => hpush.popOff hp, fun h => ?_, fun h => absurd h (by simp),
        fun h => absurd h Bool.false_ne_true, fun h => absurd h Bool.false_ne_true, hok.hang⟩
        rfl ?_ hd.1 fun _ => hd.2.2
      · simp [Call.pushed, hagree.1, hagree.2] at h
      · simp [Call.locked, hst, hagree.1, hagree.2]

end Inv

/-- **A step of `printf` keeps the invariant.** -/
theorem goCall_inv {s : State n} {h : Fin n} {c : Call} (hi : Inv s)
    (hc : (s.core h).call = some c) : Inv (goCall s h c) := by
  have hx := hi.core h
  have hok := hx.call c hc
  cases hst : c.stage with
  | testLock => exact hi.testLock hc hst
  | lockPush => exact hi.lockPush hc hst
  | lockHolding =>
      have hstep : ∀ p : Stage, p = .lockHoldingCpu ∨ p = .lockSwap →
          Inv (s.set h ((s.core h).goto c p)) := by
        rintro p (rfl | rfl) <;>
        exact hi.quiet hc (by simp [Call.Quiet, Call.pushed, Call.early, Call.late, Call.locked, hst])
      simp only [goCall, hst]
      split
      · exact hstep _ (.inl rfl)
      · exact hstep _ (.inr rfl)
  | lockHoldingCpu =>
      simp only [goCall, hst]
      split
      · exact hi.stop _
      · exact hi.quiet hc (by simp [Call.Quiet, Call.pushed, Call.early, Call.late, Call.locked, hst])
  | lockSwap => exact hi.lockSwap hc hst
  | lockSetCpu =>
      simp only [goCall, hst]
      have hfirst := hok.early (by rw [Call.early, hst])
      refine hi.update (x := (s.core h).goto c .body) hi.word rfl ?_ (fun _ _ => Iff.rfl) id
      refine hx.move hc (hok.goto ?_ (by decide) ?_ ?_) rfl ?_ hx.nonneg hx.off <;>
        simp [Call.pushed, Call.early, Call.late, Call.locked, hst, hfirst]
  | body =>
      simp only [goCall, hst]
      split
      · exact hi.quiet hc (by simp [Call.Quiet, Call.pushed, Call.early, Call.late, Call.locked, hst])
      · next ch text _ =>
        have hok' : ({ c with text := text } : Call).Ok (s.core h).cpu s.hang :=
          ⟨hok.same, hok.pushed, hok.sane, hok.early, hok.late, hok.hang⟩
        refine hi.update (x := (s.core h).goto { c with text := text } .body) hi.word rfl ?_
          (fun _ _ => Iff.rfl) id
        refine hx.move hc (hok'.goto ?_ (by decide) ?_ ?_) rfl ?_ hx.nonneg hx.off <;>
          simp [Call.pushed, Call.early, Call.late, Call.locked, hst]
  | testUnlock => exact hi.testUnlock hc hst
  | unlockHolding =>
      simp only [goCall, hst]
      split
      · exact hi.quiet hc (by simp [Call.Quiet, Call.pushed, Call.early, Call.late, Call.locked, hst])
      · exact hi.stop _
  | unlockHoldingCpu =>
      simp only [goCall, hst]
      split
      · exact hi.quiet hc (by simp [Call.Quiet, Call.pushed, Call.early, Call.late, Call.locked, hst])
      · exact hi.stop _
  | unlockClearCpu =>
      simp only [goCall, hst]
      refine hi.update (x := (s.core h).goto c .unlockSwap) hi.word rfl ?_ (fun _ _ => Iff.rfl) id
      refine hx.move hc (hok.goto ?_ (by decide) ?_ ?_) rfl ?_ hx.nonneg hx.off <;>
        simp [Call.pushed, Call.early, Call.late, Call.locked, hst]
  | unlockSwap => exact hi.unlockSwap hc hst
  | unlockPop => exact hi.unlockPop hc hst
  | ret =>
      simp only [goCall, hst]
      exact hi.set (hx.leave hc hst)

theorem goLast_inv {s s' : State n} {h : Fin n} {ts : List Task} (hi : Inv s)
    (hc : (s.core h).call = none) (hg : goLast s h ts = some s') : Inv s' := by
  have hx := hi.core h
  cases ts with
  | nil => cases hg
  | cons t ts =>
    cases t with
    | interruptOff =>
        cases hg
        exact hi.set (hx.setCpu hc hx.nonneg (fun _ _ => rfl) fun h => nomatch h)
    | setHang =>
        cases hg
        refine hi.update (x := { s.core h with last := some ts }) hi.word rfl ?_
          (fun _ _ => Iff.rfl) fun _ => rfl
        exact (hx.mono (fun _ => rfl) Iff.rfl).setCpu hc hx.nonneg (fun h => nomatch h)
          fun h => nomatch h
    | printf fmt args =>
        cases hg
        have hx' : CoreOk s.hang (s.holder = some h) { s.core h with last := some ts } :=
          hx.setCpu hc hx.nonneg hx.off fun h => nomatch h
        exact hi.set (hx'.enter hc _)

/-- **Every step of every hart keeps the invariant.** -/
theorem next_inv {s s' : State n} {h : Fin n} {a : Act} (hi : Inv s)
    (hn : next s h a = some s') : Inv s' := by
  have hx := hi.core h
  have hidle : (s.core h).idle = true → (s.core h).call = none ∧ (s.core h).last = none := by
    simp [Core.idle]
  cases a with
  | printf fmt args =>
      simp only [next] at hn
      split at hn <;> cases hn
      next hid => exact hi.set (hx.enter (hidle hid).1 _)
  | error str =>
      simp only [next] at hn
      split at hn <;> cases hn
      next hid => exact hi.set (hx.enter (hidle hid).1 _)
  | panic str =>
      simp only [next] at hn
      split at hn <;> cases hn
      exact hi.stop _
  | pushOff =>
      simp only [next] at hn
      split at hn <;> cases hn
      next hid =>
      obtain ⟨hc, hl⟩ := hidle hid
      have hnn := hx.nonneg
      refine hi.set (hx.setCpu hc ?_ (fun _ _ => rfl) fun _ hh => ?_)
      · simp only [pushOff]
        omega
      · simp only [pushOff, hx.own hc hl hh]
        omega
  | popOff =>
      simp only [next] at hn
      split at hn
      · next hid =>
        obtain ⟨hc, hl⟩ := hidle hid.1
        cases hp : Spinlock.popOff (s.core h).cpu with
        | error m =>
            rw [hp] at hn
            cases hn
            exact hi.stop _
        | ok cpu =>
            rw [hp] at hn
            cases hn
            obtain ⟨hnn, hd, hoff⟩ := popOff_depth hp
            refine hi.set (hx.setCpu hc hnn (fun _ => hoff) fun _ hh => ?_)
            rw [hd, hx.own hc hl hh]
            have := hid.2
            omega
      · cases hn
  | interruptOn =>
      simp only [next] at hn
      split at hn <;> cases hn
      next hid =>
      obtain ⟨hc, hl⟩ := hidle hid.1
      refine hi.set (hx.setCpu hc hx.nonneg (fun hh hd => ?_) fun _ hh => hx.own hc hl hh)
      -- nothing has been pushed, so the depth is 0
      have hown := hx.own hc hl hh
      rw [hid.2] at hown
      simp only [hown] at hd
      exact absurd hd (by decide)
  | interruptOff =>
      simp only [next] at hn
      split at hn <;> cases hn
      next hid =>
      obtain ⟨hc, hl⟩ := hidle hid
      exact hi.set (hx.setCpu hc hx.nonneg (fun _ _ => rfl) fun _ hh => hx.own hc hl hh)
  | interrupt b =>
      simp only [next] at hn
      split at hn <;> cases hn
      next hs => exact hi.set (hx.setIntena hs b)
  | unexpected scause sepc =>
      simp only [next] at hn
      split at hn <;> cases hn
      obtain ⟨hd, hs⟩ := trapped_depth hx.nonneg
      exact hi.set (hx.stop (hd ▸ hx.nonneg) (fun _ _ => hs) _)
  | exception scause sepc stval =>
      simp only [next] at hn
      cases hn
      obtain ⟨hd, hs⟩ := trapped_depth hx.nonneg
      exact hi.set (hx.stop (hd ▸ hx.nonneg) (fun _ _ => hs) _)
  | go =>
      simp only [next] at hn
      cases hc : (s.core h).call with
      | some c =>
          rw [hc] at hn
          cases hn
          exact goCall_inv hi hc
      | none =>
          rw [hc] at hn
          obtain ⟨ts, -, hg⟩ := Option.bind_eq_some_iff.1 hn
          exact goLast_inv hi hc hg

theorem inv_init {s : State n} (h : (system n).init s) : Inv s := by
  obtain ⟨hhang, hlk, hholder, hcore⟩ := h
  refine ⟨by simp [hlk, hholder, initLock], fun h => ?_⟩
  obtain ⟨hd, hown, hc, hl, hf, hsp⟩ := hcore h
  rw [hholder]
  constructor
  case nonneg => rw [hd]
  case off => simp [hd]
  case own => simp [hd, hown]
  case entry => simp [hc]
  case call => simp [hc]
  case alone => simp [hc]
  case locked => simp [Core.calls, hc, hf]
  case held => simp

theorem inv_reachable {s : State n} (h : (system n).Reachable s) : Inv s :=
  h.invariant (fun _ => inv_init) fun _ _ _ _ => next_inv

/-! ## The main results -/

/-- **`printf` is balanced exactly when its two tests of `hang` agree.**  In every interleaving,
with panics and exceptions at any moment on any hart: a call that returns leaves the depth and
the interrupts as they were on entry if its tests found the same, and only then; `print_lock` is
taken only while some hart holds it, and a hart holds it only inside a call of `printf`, unless it
has returned from a call whose tests differed. -/
theorem printf_balanced {s : State n} (hr : (system n).Reachable s) :
    (∀ h c, (s.core h).call = some c → c.stage = .ret →
      ((s.core h).cpu.depth = c.entry.depth ∧ (s.core h).cpu.sie = c.entry.sie ↔
        c.first = c.second)) ∧
    (s.lk.lock ≠ 0 ↔ ∃ h, s.holder = some h) ∧
    ∀ h, s.holder = some h → (s.core h).split = false → (s.core h).calls ≠ [] := by
  have hi := inv_reachable hr
  refine ⟨fun h c hc hst => ?_, hi.word, fun h hh hsp hnil => ?_⟩
  · have hok := (hi.core h).call c hc
    have hp : c.pushed = (c.first != c.second) := by rw [Call.pushed, hst]
    by_cases hagree : c.first = c.second
    · exact iff_of_true (hok.same (hp.trans (by simp [hagree]))) hagree
    · -- the depth is still that of `lock`
      have hdepth := (hok.pushed (hp.trans (by simp [hagree]))).depth
      exact iff_of_false (fun hsame => by have := hsame.1; omega) hagree
  · rcases (hi.core h).held hh with hs | ⟨c, hc, -⟩
    · rw [hs] at hsp
      cases hsp
    · rw [hnil] at hc
      cases hc

/-- Two harts whose interrupts are on. -/
def quiet : State 2 where
  hang := false
  lk := initLock
  uart := []
  core := fun _ => ⟨⟨0, false, true⟩, 0, none, none, [], false⟩
  holder := none

theorem quiet_reachable : (system 2).Reachable quiet :=
  .start ⟨rfl, rfl, rfl, fun _ => ⟨rfl, rfl, rfl, rfl, rfl, rfl⟩⟩

/-- Hart 0 prints while hart 1 is silent, and is back at depth 0 with its interrupts on. -/
theorem printf_balanced_quiet : ∃ (s : State 2) (c : Call), (system 2).Reachable s ∧
    (s.core 0).call = some c ∧ c.stage = .ret ∧ s.uart = cstr "a" ∧ c.entry.sie = true ∧
      (s.core 0).cpu.depth = 0 ∧ (s.core 0).cpu.sie = true := by
  obtain ⟨s, hs, c, hc, hst, hagree, hout, hd, hsie⟩ : ∃ s, Lts.exec (fun s a => next s a.1 a.2)
      ([((0 : Fin 2), Act.printf (cstr "a") [])] ++ List.replicate 13 (0, .go)) quiet = some s ∧
      ∃ c, (s.core 0).call = some c ∧ c.stage = .ret ∧ c.first = c.second ∧ s.uart = cstr "a" ∧
        c.entry.depth = 0 ∧ c.entry.sie = true :=
    ⟨_, rfl, _, rfl, rfl, rfl, rfl, rfl, rfl⟩
  have hr := quiet_reachable.exec hs
  obtain ⟨hdepth, hon⟩ := ((printf_balanced hr).1 0 c hc hst).2 hagree
  exact ⟨s, c, hr, hc, hst, hout, hsie, hdepth.trans hd, hon.trans hsie⟩

/-- **The leak.**  Hart 0 calls `printf` at depth 0 with its interrupts on, and takes
`print_lock`; hart 1 calls `panic`, which sets `hang`; hart 0 finds it set and does not call
`unlock`.  It returns at depth 1 with its interrupts off, and holds `print_lock`. -/
theorem printf_leaks : ∃ (s s' : State 2) (c : Call), (system 2).Reachable s ∧
    (s.core 0).call = some c ∧ c.stage = .ret ∧ c.entry.depth = 0 ∧ c.entry.sie = true ∧
      next s 0 .go = some s' ∧ (s'.core 0).calls = [] ∧ (s'.core 0).idle = true ∧
      (s'.core 0).cpu.depth = 1 ∧ (s'.core 0).cpu.sie = false ∧ s'.lk.lock = 1 ∧
      s'.lk.cpu = some 0 ∧ s'.holder = some 0 := by
  obtain ⟨s, hs, s', c, hrest⟩ : ∃ s, Lts.exec (fun s a => next s a.1 a.2)
      ([((0 : Fin 2), Act.printf (cstr "a") [])] ++ List.replicate 5 (0, .go) ++
        [(1, .panic (cstr "kexit: zombie returned")), (1, .go), (1, .go)] ++
        List.replicate 3 (0, .go)) quiet = some s ∧ ∃ (s' : State 2) (c : Call),
      (s.core 0).call = some c ∧ c.stage = .ret ∧ c.entry.depth = 0 ∧ c.entry.sie = true ∧
      next s 0 .go = some s' ∧ (s'.core 0).calls = [] ∧ (s'.core 0).idle = true ∧
      (s'.core 0).cpu.depth = 1 ∧ (s'.core 0).cpu.sie = false ∧ s'.lk.lock = 1 ∧
      s'.lk.cpu = some 0 ∧ s'.holder = some 0 :=
    ⟨_, rfl, _, _, rfl, rfl, rfl, rfl, rfl, rfl, rfl, rfl, rfl, rfl, rfl, rfl⟩
  exact ⟨s, s', c, quiet_reachable.exec hs, hrest⟩

end Wl00.Printf
