import Wl00.Sched.Handler
import Wl00.Trap.Asm

/-!
# Interrupts in the kernel, down to the registers

The harts of `Wl00.Sched` with their registers and the memory that the assembly files work
on.  Between two steps of the kernel, compiled code changes the registers of its hart and
memory as it likes, except that

* it does not write `tp`;
* it leaves alone what is not its own: the frames of `kerneltrap` on the stacks, and the
  contexts of threads that have called `swtch`;
* a call returns with `sp` and `s0` to `s11` as they were, if `swtch` does so wherever it is
  called;
* its stack has room for the frame of an interrupt, wherever interrupts are on.

The third one is what is known of `s_trap_handle` when it returns to `kerneltrap`.

* `kerneltrap_transparent` — what an interrupted thread resumes with.
-/

namespace Wl00.Trap

open Rv32 Sched

/-! ## The machine -/

/-- What the hardware does to `sstatus` at a trap from supervisor mode: SPP is set, SIE moves
to SPIE. -/
def trapStatus (w : Word) : Word :=
  (w &&& ~~~0x122#32) ||| 0x100#32 ||| (if w.getLsbD 1 then 0x20#32 else 0#32)

/-- What `sret` does to it: SPIE moves back to SIE. -/
def sretStatus (w : Word) : Word :=
  (w &&& ~~~0x122#32) ||| 0x20#32 ||| (if w.getLsbD 5 then 0x2#32 else 0#32)

/-- `devintr`: which interrupt this is. -/
def devintr (scause : Word) : Nat :=
  if scause &&& 0x7FFFFFFF#32 = 1#32 then 1
  else if scause &&& 0x7FFFFFFF#32 = 5#32 then 2
  else if scause &&& 0x7FFFFFFF#32 = 9#32 then 3
  else 0

/-- `s_trap_handle` up to the call of `yield`: the result of `devintr`, or none where it
panics. -/
def sTrapHandle (scause sstatus : Word) : Option Nat :=
  if sstatus.getLsbD 8 = false then none
  else if sstatus.getLsbD 1 = true then none
  else if scause.getLsbD 31 = false then none
  else if devintr scause = 0 then none
  else some (devintr scause)

/-- Where the `struct context` of each thread is: in `proctable` and in `cpus`. -/
structure Places (n : Nat) where
  ctx : Thread n → Nat
  fits : ∀ t, ctx t + 56 ≤ 2 ^ 32
  apart : ∀ t t', t ≠ t' → ctx t + 56 ≤ ctx t' ∨ ctx t' + 56 ≤ ctx t

/-- The parameter and the variable of `s_trap_handle` that are written back. -/
structure Locals where
  sepc : Word
  sstatus : Word

/-- An interrupt: the registers, the pc and `sstatus` that `kerneltrap` starts with, and the
registers with which it calls `s_trap_handle`. -/
structure Entry where
  x : Reg → Word
  pc : Word
  sstatus : Word
  called : Reg → Word

/-- The frame that `kerneltrap` makes. -/
def Entry.Frame (e : Entry) (a : Nat) : Prop := (e.x .sp).toNat - 128 ≤ a ∧ a < (e.x .sp).toNat

/-- `s_trap_handle` of a thread has `locals`; `side` says that a hart is in `s_trap_handle` for
an interrupt that is not the timer's, which `base` does not know of; `sscratch` is the slot
whose trapframe the register points to, and `kHartid` a field of the trapframes.  History
variables are the interrupt a thread has yet to return from, the registers a thread has
called `swtch` with, and whether `swtch` has always given them back. -/
structure Machine (n : Nat) where
  base : Sched.State n
  core : Fin n → Core
  pc : Fin n → Word
  mem : Bytes
  panicked : Fin n → Bool
  side : Fin n → Bool
  sscratch : Fin n → Option Slot
  kHartid : Slot → Word
  locals : Thread n → Option Locals
  entry : Thread n → Option Entry
  left : Thread n → Option (Reg → Word)
  kept : Thread n → Prop

/-- The registers that a call gives back. -/
def calleeSaved : List Reg := [.sp, .s0, .s1, .s2, .s3, .s4, .s5, .s6, .s7, .s8, .s9, .s10, .s11]

variable {n : Nat} (P : Places n)

/-- Address `a` belongs to the context of thread `t`. -/
def Places.Ctx (t : Thread n) (a : Nat) : Prop := P.ctx t ≤ a ∧ a < P.ctx t + 56

/-- Compiled code has no business at this address. -/
def Machine.Reserved (m : Machine n) (a : Nat) : Prop :=
  (∃ t e, m.entry t = some e ∧ e.Frame a) ∨ ∃ t, m.left t ≠ none ∧ P.Ctx t a

/-- The registers after the trap and `kerneltrap` up to the call. -/
def trapped (c : Core) (pc scause : Word) : Core :=
  ((c.setCsr .sepc pc).setCsr .scause scause).setCsr .sstatus (trapStatus (c.csr .sstatus))

/-- What a hart does. -/
inductive Act where
  /-- Compiled code in the kernel, or user code. -/
  | compute
  /-- A step of the kernel on the stack the hart is on. -/
  | go (c : Choice)
  /-- `swtch` -/
  | swtch
  /-- A trap from user mode, through `usertrap` -/
  | usertrap (c : Choice)
  /-- `utrapret` and `usertrapret` -/
  | utrapret
  /-- An interrupt in the kernel, through `kerneltrap` to `s_trap_handle` -/
  | kerneltrap (scause : Word)
  /-- `s_trap_handle` returns, and `kerneltrap` ends in `sret`. -/
  | sret

/-- The hart is about to call `swtch`. -/
def AtSwtch (pc : Pc) : Prop := (∃ i, pc = .schedSwtch i) ∨ ∃ k, Leaves pc k

/-- The slot for which a step of the kernel prepares a new thread. -/
def prepares (pc : Pc) (c : Choice) : Option Slot :=
  match pc with
  | .paAlloc _ i => if c = .fail then none else some i
  | _ => none

namespace Machine

def setCore (m : Machine n) (h : Fin n) (c : Core) : Machine n :=
  { m with core := Function.update m.core h c }

/-- Nothing is left of the thread that slot `i` had before. -/
def forget (m : Machine n) : Option Slot → Machine n
  | none => m
  | some i => { m with
      locals := Function.update m.locals (.proc i) none
      entry := Function.update m.entry (.proc i) none
      left := Function.update m.left (.proc i) none }

/-- `kerneltrap` has called `s_trap_handle`. -/
def interrupted (m : Machine n) (h : Fin n) (scause : Word) : Machine n :=
  let c := trapped (m.core h) (m.pc h) scause
  let r := run c m.mem kerneltrapEntry
  { m.setCore h r.1 with
    mem := r.2
    locals := Function.update m.locals (m.base.thread h) (some ⟨c.csr .sepc, c.csr .sstatus⟩)
    entry := Function.update m.entry (m.base.thread h)
      (some ⟨(m.core h).x, m.pc h, trapStatus ((m.core h).csr .sstatus), r.1.x⟩) }

/-- `s_trap_handle` writes `sepc` and `sstatus` back and returns, and `kerneltrap` goes to its
`sret`. -/
def returned (m : Machine n) (h : Fin n) (l : Locals) : Machine n :=
  let c := ((m.core h).setCsr .sepc l.sepc).setCsr .sstatus l.sstatus
  let r := run c m.mem kerneltrapExit
  { m.setCore h (r.1.setCsr .sstatus (sretStatus (r.1.csr .sstatus))) with
    mem := r.2
    pc := Function.update m.pc h (r.1.csr .sepc)
    locals := Function.update m.locals (m.base.thread h) none
    entry := Function.update m.entry (m.base.thread h) none }

/-- `swtch` from thread `t` to thread `t'` -/
def switched (m : Machine n) (h : Fin n) (t t' : Thread n) : Machine n :=
  let r := run (m.core h) m.mem swtch
  { m.setCore h r.1 with
    mem := r.2
    left := Function.update (Function.update m.left t (some (m.core h).x)) t' none
    kept := Function.update m.kept t' (m.kept t' ∧
      ∀ x, m.left t' = some x → ∀ s ∈ contextSlots, r.1.x s.1 = x s.1) }

end Machine

/-- A step of hart `h`. -/
inductive Step (m : Machine n) (h : Fin n) : Act → Machine n → Prop
  | compute (c : Core) (pc : Word) (mem : Bytes) (ks : Slot → Word) :
      (m.base.pcOf h ≠ .user → c.x .tp = (m.core h).x .tp) →
      (∀ a, m.Reserved P a → mem a = m.mem a) →
      (∀ q, m.base.tpc q = .user → ks q = m.kHartid q) →
      Step m h .compute { m.setCore h c with
        pc := Function.update m.pc h pc
        mem := mem
        kHartid := ks }
  | go (c : Choice) (s : Sched.State n) : m.side h = false → c ≠ .timer →
      m.base.pcOf h ≠ .user → m.base.pcOf h ≠ .utrapret → (∀ k, m.base.pcOf h ≠ .sret k) →
      ¬AtSwtch (m.base.pcOf h) → Sched.go m.base h c = some s →
      Step m h (.go c) ({ m with base := s }.forget (prepares (m.base.pcOf h) c))
  | swtch (s : Sched.State n) : m.side h = false → AtSwtch (m.base.pcOf h) →
      Sched.go m.base h .go = some s →
      ((m.core h).x .a0).toNat = P.ctx (m.base.thread h) →
      ((m.core h).x .a1).toNat = P.ctx (s.thread h) →
      Step m h .swtch { m.switched h (m.base.thread h) (s.thread h) with base := s }
  | usertrap (c : Choice) (s : Sched.State n) (p : Slot) (core : Core) : m.side h = false →
      m.base.pcOf h = .user →
      next m.base h c = some s → m.sscratch h = some p → core.x .tp = m.kHartid p →
      Step m h (.usertrap c) { m.setCore h core with base := s }
  | utrapret (s : Sched.State n) (p : Slot) (core : Core) : m.side h = false →
      m.base.pcOf h = .utrapret → Sched.go m.base h .go = some s → m.base.cproc h = some p →
      Step m h .utrapret { m.setCore h core with
        base := s
        sscratch := Function.update m.sscratch h (some p)
        kHartid := Function.update m.kHartid p ((m.core h).x .tp) }
  | timer (scause : Word) (s : Sched.State n) : m.side h = false → m.base.pcOf h ≠ .user →
      128 ≤ ((m.core h).x .sp).toNat →
      (∀ a, ((m.core h).x .sp).toNat - 128 ≤ a → a < ((m.core h).x .sp).toNat →
        ¬m.Reserved P a ∧ ∀ t, ¬P.Ctx t a) →
      sTrapHandle scause (trapStatus ((m.core h).csr .sstatus)) = some 2 →
      Sched.timer m.base h = some s →
      Step m h (.kerneltrap scause) { m.interrupted h scause with base := s }
  | other (scause : Word) (d : Nat) : m.side h = false → m.base.pcOf h ≠ .user →
      (m.base.cpus h).sie = true → 128 ≤ ((m.core h).x .sp).toNat →
      (∀ a, ((m.core h).x .sp).toNat - 128 ≤ a → a < ((m.core h).x .sp).toNat →
        ¬m.Reserved P a ∧ ∀ t, ¬P.Ctx t a) →
      sTrapHandle scause (trapStatus ((m.core h).csr .sstatus)) = some d → d ≠ 2 →
      Step m h (.kerneltrap scause)
        { m.interrupted h scause with side := Function.update m.side h true }
  | unexpected (scause : Word) : m.side h = false → m.base.pcOf h ≠ .user →
      sTrapHandle scause (trapStatus ((m.core h).csr .sstatus)) = none →
      Step m h (.kerneltrap scause) { m with panicked := Function.update m.panicked h true }
  | sret (l : Locals) (e : Entry) (s : Sched.State n) (k : Pc) : m.side h = false →
      m.base.pcOf h = .sret k → Sched.go m.base h .go = some s →
      m.locals (m.base.thread h) = some l → m.entry (m.base.thread h) = some e →
      (m.kept (m.base.thread h) → ∀ r ∈ calleeSaved, (m.core h).x r = e.called r) →
      Step m h .sret { m.returned h l with base := s }
  | otherRet (l : Locals) (e : Entry) : m.side h = true →
      m.locals (m.base.thread h) = some l → m.entry (m.base.thread h) = some e →
      (m.kept (m.base.thread h) → ∀ r ∈ calleeSaved, (m.core h).x r = e.called r) →
      Step m h .sret { m.returned h l with side := Function.update m.side h false }

/-- The harts as they enter `scheduler`: `tp` is the id of the hart. -/
def Machine.Boots (m : Machine n) : Prop :=
  m.base = boot n ∧ (∀ h, (m.core h).x .tp = BitVec.ofNat 32 h) ∧ (∀ h, m.side h = false) ∧
    (∀ t, m.entry t = none) ∧ (∀ t, m.left t = none) ∧ ∀ t, m.kept t

/-- `n` harts running the kernel. -/
def machine : Lts (Machine n) (Fin n × Act) where
  init m := m.Boots
  step m a m' := m.panicked a.1 = false ∧ Step P m a.1 a.2 m'

/-! ## What every run keeps -/

theorem trapStatus_sie (w : Word) : (trapStatus w).getLsbD 1 = false := by
  unfold trapStatus
  split <;> simp

/-- What is known of an interrupt that thread `t` has yet to return from. -/
structure EntryOk (m : Machine n) (t : Thread n) (e : Entry) : Prop where
  locals : m.locals t = some ⟨e.pc, e.sstatus⟩
  room : 128 ≤ (e.x .sp).toNat
  saved : Saved m.mem ((e.x .sp).toNat - 128) e.x frameSaves
  sp : e.called .sp = e.x .sp + BitVec.ofInt 32 (-128)
  sie : e.sstatus.getLsbD 1 = false
  apart : ∀ a, e.Frame a → ∀ t', ¬P.Ctx t' a

/-- What the harts have in their registers. -/
structure Regs (m : Machine n) : Prop where
  reach : (system n).Reachable m.base
  tp : ∀ h, m.base.pcOf h ≠ .user → (m.core h).x .tp = BitVec.ofNat 32 h
  user : ∀ h, m.base.pcOf h = .user →
    ∃ p, m.base.cur h = some p ∧ m.sscratch h = some p ∧ m.kHartid p = BitVec.ofNat 32 h

/-- What there is in memory. -/
structure Store (m : Machine n) : Prop where
  left : ∀ t x, m.left t = some x →
    (∀ h, m.base.thread h ≠ t) ∧ Saved m.mem (P.ctx t) x contextSlots
  kept : ∀ t, m.kept t
  entry : ∀ t e, m.entry t = some e → EntryOk P m t e
  apart : ∀ t t' e e' a, t ≠ t' → m.entry t = some e → m.entry t' = some e' → e.Frame a →
    ¬e'.Frame a

/-- The threads in the handler are those that have been interrupted. -/
structure Live (m : Machine n) : Prop where
  frames : ∀ t, (m.base.pcAt t).frames ≠ [] → m.entry t ≠ none
  side : ∀ h, m.side h = true → m.entry (m.base.thread h) ≠ none ∧ (m.base.cpus h).sie = true ∧
    m.base.pcOf h ≠ .user
  owed : ∀ t, m.entry t ≠ none →
    (m.base.pcAt t).frames ≠ [] ∨ ∃ h, m.side h = true ∧ m.base.thread h = t

section Steps

variable {P} {m m' : Machine n} {h : Fin n} {s : Sched.State n}

/-- A step of hart `h`, as the other harts see it. -/
theorem Regs.step (hi : Regs m) (hb : m'.base = s) {c : Choice} (hn : next m.base h c = some s)
    (hcore : ∀ h', h' ≠ h → m'.core h' = m.core h')
    (hscr : ∀ h', h' ≠ h → m'.sscratch h' = m.sscratch h')
    (hks : ∀ h' p, h' ≠ h → m.base.cur h' = some p → m'.kHartid p = m.kHartid p)
    (htp : s.pcOf h ≠ .user → (m'.core h).x .tp = BitVec.ofNat 32 h)
    (huser : s.pcOf h = .user →
      ∃ p, s.cur h = some p ∧ m'.sscratch h = some p ∧ m'.kHartid p = BitVec.ofNat 32 h) :
    Regs m' := by
  have hinv := inv_reachable hi.reach
  have hs := next_step hn
  have hr : (system n).Reachable s :=
    hi.reach.next (a := ⟨h, c, emit m.base h c⟩) ⟨hn, rfl⟩
  refine ⟨hb ▸ hr, fun h' hp => ?_, fun h' hp => ?_⟩
  · rw [hb] at hp
    by_cases hh : h' = h
    · subst hh
      exact htp hp
    · rw [hinv.pcOf_step hs hh] at hp
      rw [hcore h' hh]
      exact hi.tp h' hp
  · rw [hb] at hp ⊢
    by_cases hh : h' = h
    · subst hh
      exact huser hp
    · rw [hinv.pcOf_step hs hh] at hp
      obtain ⟨p, hu, h1, h2⟩ := hi.user h' hp
      refine ⟨p, (hs.cur_ne hh).trans hu, (hscr h' hh).trans h1, (hks h' p hh hu).trans h2⟩

theorem EntryOk.congr {t : Thread n} {e : Entry} (he : EntryOk P m t e)
    (hl : m'.locals t = m.locals t) (hm : ∀ a, e.Frame a → m'.mem a = m.mem a) :
    EntryOk P m' t e := by
  refine { he with locals := hl.trans he.locals, saved := ?_ }
  refine he.saved.congr frameSaves_fit.1 fun a h1 h2 => hm a ⟨h1, ?_⟩
  have := he.room
  omega

/-- Nobody has switched, and what is reserved is untouched. -/
theorem Store.stay (hi : Store P m) (hth : ∀ h, m'.base.thread h = m.base.thread h)
    (hmem : ∀ a, m.Reserved P a → m'.mem a = m.mem a)
    (hleft : ∀ t x, m'.left t = some x → m.left t = some x) (hkept : m'.kept = m.kept)
    (hentry : ∀ t e, m'.entry t = some e → m.entry t = some e ∧ m'.locals t = m.locals t) :
    Store P m' := by
  refine ⟨fun t x hx => ?_, fun t => hkept ▸ hi.kept t, fun t e he => ?_,
    fun t t' e e' a ht he he' => hi.apart t t' e e' a ht (hentry t e he).1 (hentry t' e' he').1⟩
  · obtain ⟨h1, h2⟩ := hi.left t x (hleft t x hx)
    refine ⟨fun h => hth h ▸ h1 h, h2.congr contextSlots_fit.1 fun a ha hb => hmem a (.inr ⟨t, ?_, ha, hb⟩)⟩
    rw [hleft t x hx]
    exact nofun
  · obtain ⟨h1, h2⟩ := hentry t e he
    exact (hi.entry t e h1).congr h2 fun a ha => hmem a (.inl ⟨t, e, h1, ha⟩)

/-- The registers with which `s_trap_handle` is called. -/
def calledWith (c : Core) : Core :=
  ((c.set .sp (c.x .sp + BitVec.ofInt 32 (-128))).set .a0 (c.csr .scause)).set .a1 (c.csr .sepc)

theorem calledWith_sp (c : Core) : (calledWith c).x .sp = c.x .sp + BitVec.ofInt 32 (-128) := by
  rw [calledWith, Core.set_of_ne _ _ (by decide), Core.set_of_ne _ _ (by decide), Core.set_self]

theorem calledWith_tp (c : Core) : (calledWith c).x .tp = c.x .tp := by
  rw [calledWith, Core.set_of_ne _ _ (by decide), Core.set_of_ne _ _ (by decide),
    Core.set_of_ne _ _ (by decide)]

theorem Machine.interrupted_eq {scause : Word} (hsp : 128 ≤ ((m.core h).x .sp).toNat) :
    m.interrupted h scause =
      { m.setCore h (calledWith (trapped (m.core h) (m.pc h) scause)) with
        mem := save m.mem (((m.core h).x .sp).toNat - 128) (m.core h).x frameSaves
        locals := Function.update m.locals (m.base.thread h)
          (some ⟨m.pc h, trapStatus ((m.core h).csr .sstatus)⟩)
        entry := Function.update m.entry (m.base.thread h)
          (some ⟨(m.core h).x, m.pc h, trapStatus ((m.core h).csr .sstatus),
            (calledWith (trapped (m.core h) (m.pc h) scause)).x⟩) } := by
  have hrun : run (trapped (m.core h) (m.pc h) scause) m.mem kerneltrapEntry =
      (calledWith (trapped (m.core h) (m.pc h) scause),
        save m.mem (((m.core h).x .sp).toNat - 128) (m.core h).x frameSaves) :=
    run_kerneltrapEntry m.mem hsp
  simp only [Machine.interrupted, hrun]
  rfl

theorem Machine.core_interrupted (hsp : 128 ≤ ((m.core h).x .sp).toNat) (w : Word) :
    (m.interrupted h w).core =
      Function.update m.core h (calledWith (trapped (m.core h) (m.pc h) w)) := by
  rw [Machine.interrupted_eq hsp]
  rfl

theorem Machine.entry_interrupted_of_ne {t : Thread n} (ht : t ≠ m.base.thread h) (w : Word) :
    (m.interrupted h w).entry t = m.entry t := by
  simp only [Machine.interrupted]
  exact Function.update_of_ne ht _ _

theorem Machine.entry_interrupted_self (m : Machine n) (h : Fin n) (w : Word) :
    ∃ e, (m.interrupted h w).entry (m.base.thread h) = some e ∧
      (m.interrupted h w).locals (m.base.thread h) = some ⟨e.pc, e.sstatus⟩ ∧
      ((m.interrupted h w).core h).x = e.called ∧ e.x = (m.core h).x ∧ e.pc = m.pc h ∧
      e.sstatus = trapStatus ((m.core h).csr .sstatus) := by
  simp only [Machine.interrupted, Machine.setCore, Function.update_self]
  exact ⟨_, rfl, rfl, rfl, rfl, rfl, rfl⟩

theorem Machine.entry_interrupted (m : Machine n) (h : Fin n) (w : Word) :
    (m.interrupted h w).entry (m.base.thread h) ≠ none ∧
      ∀ t, m.entry t ≠ none → (m.interrupted h w).entry t ≠ none := by
  have hself : (m.interrupted h w).entry (m.base.thread h) ≠ none := by
    obtain ⟨e, he, -⟩ := m.entry_interrupted_self h w
    rw [he]
    exact nofun
  refine ⟨hself, fun t ht => ?_⟩
  by_cases hne : t = m.base.thread h
  · rw [hne]
    exact hself
  · rwa [Machine.entry_interrupted_of_ne hne]

/-- `kerneltrap` makes a frame in memory that nobody uses. -/
theorem Store.interrupted (hi : Store P m) {scause : Word} (hsp : 128 ≤ ((m.core h).x .sp).toNat)
    (hfree : ∀ a, ((m.core h).x .sp).toNat - 128 ≤ a → a < ((m.core h).x .sp).toNat →
      ¬m.Reserved P a ∧ ∀ t, ¬P.Ctx t a)
    (hb : m'.base.thread = m.base.thread) (hl : m'.left = m.left) (hk : m'.kept = m.kept)
    (hmem : m'.mem = (m.interrupted h scause).mem)
    (hloc : m'.locals = (m.interrupted h scause).locals)
    (hent : m'.entry = (m.interrupted h scause).entry) : Store P m' := by
  rw [Machine.interrupted_eq hsp] at hmem hloc hent
  dsimp only at hmem hloc hent
  generalize he₀ : Entry.mk (m.core h).x (m.pc h) (trapStatus ((m.core h).csr .sstatus))
    (calledWith (trapped (m.core h) (m.pc h) scause)).x = e₀ at hent
  have hsame : ∀ a, m.Reserved P a ∨ (∃ t, P.Ctx t a) → m'.mem a = m.mem a := by
    intro a ha
    rw [hmem]
    refine save_of_not_mem frameSaves_fit.1 ?_
    by_contra hn
    obtain ⟨h1, h2⟩ := hfree a (by omega) (by omega)
    rcases ha with ha | ⟨t, ha⟩
    · exact h1 ha
    · exact h2 t ha
  have hframe : ∀ a, e₀.Frame a → ¬m.Reserved P a ∧ ∀ t, ¬P.Ctx t a := by
    rw [← he₀]
    exact fun a ha => hfree a ha.1 ha.2
  have hold : ∀ t e, t ≠ m.base.thread h → m'.entry t = some e → m.entry t = some e := by
    intro t e ht he
    rwa [hent, Function.update_of_ne ht] at he
  have hnew : ∀ e, m'.entry (m.base.thread h) = some e → e₀ = e := by
    intro e he
    rw [hent, Function.update_self] at he
    exact Option.some.inj he
  refine ⟨fun t x hx => ?_, hk ▸ hi.kept, fun t e he => ?_, fun t t' e e' a ht he he' ha ha' => ?_⟩
  · obtain ⟨h1, h2⟩ := hi.left t x (hl ▸ hx)
    refine ⟨fun h => hb ▸ h1 h, h2.congr contextSlots_fit.1 fun a ha hb => hsame a (.inr ⟨t, ha, hb⟩)⟩
  · by_cases ht : t = m.base.thread h
    · subst ht
      obtain rfl := hnew e he
      subst he₀
      refine ⟨by rw [hloc, Function.update_self], hsp, ?_, calledWith_sp _, trapStatus_sie _,
        fun a ha => (hframe a ha).2⟩
      rw [hmem]
      exact saved_save frameSaves_fit
    · refine (hi.entry t e (hold t e ht he)).congr (by rw [hloc, Function.update_of_ne ht])
        fun a ha => hsame a (.inl (.inl ⟨t, e, hold t e ht he, ha⟩))
  · by_cases h1 : t = m.base.thread h
    · subst h1
      obtain rfl := hnew e he
      exact (hframe a ha).1 (.inl ⟨t', e', hold t' e' (Ne.symm ht) he', ha'⟩)
    · by_cases h2 : t' = m.base.thread h
      · subst h2
        obtain rfl := hnew e' he'
        exact (hframe a ha').1 (.inl ⟨t, e, hold t e h1 he, ha⟩)
      · exact hi.apart t t' e e' a ht (hold t e h1 he) (hold t' e' h2 he') ha ha'

theorem run_swtch_mem {c : Core} {mem : Bytes} (h0 : (c.x .a0).toNat + 56 ≤ 2 ^ 32) :
    (run c mem swtch).2 = save mem (c.x .a0).toNat c.x contextSlots ∧
      ∀ r, r ∉ contextSlots.map Prod.fst → (run c mem swtch).1.x r = c.x r := by
  rw [swtch, run_append, run_stores contextSlots_fit h0]
  obtain ⟨h1, -, h2⟩ := run_loads_frame c (save mem (c.x .a0).toNat c.x contextSlots) .a1 contextSlots
  exact ⟨h1, h2⟩

/-- **`swtch` gives the thread it goes to what it left with.** -/
theorem Store.switched (hi : Store P m) {t t' : Thread n} (ht : t' ≠ t)
    (h0 : ((m.core h).x .a0).toNat = P.ctx t) (h1 : ((m.core h).x .a1).toNat = P.ctx t')
    (hrun : ∀ h', m'.base.thread h' ≠ t)
    (hother : ∀ h', m'.base.thread h' = t' ∨ m'.base.thread h' = m.base.thread h')
    (hmem : m'.mem = (m.switched h t t').mem) (hleft : m'.left = (m.switched h t t').left)
    (hkept : m'.kept = (m.switched h t t').kept) (hloc : m'.locals = m.locals)
    (hent : m'.entry = m.entry) : Store P m' := by
  have hfit := P.fits t
  have hsave : m'.mem = save m.mem (P.ctx t) (m.core h).x contextSlots := by
    rw [hmem]
    simp only [Machine.switched]
    rw [(run_swtch_mem (by rw [h0]; exact hfit)).1, h0]
  -- only the context of `t` is written
  have hsame : ∀ a, ¬P.Ctx t a → m'.mem a = m.mem a := by
    intro a ha
    rw [hsave]
    refine save_of_not_mem contextSlots_fit.1 ?_
    unfold Places.Ctx at ha
    omega
  have hctx : ∀ t'', t'' ≠ t → ∀ a, P.Ctx t'' a → ¬P.Ctx t a := by
    intro t'' hne a ha hb
    unfold Places.Ctx at ha hb
    have := P.apart t'' t hne
    omega
  refine ⟨fun t'' x hx => ?_, fun t'' => ?_, fun t'' e he => ?_, by rw [hent]; exact hi.apart⟩
  · rw [hleft] at hx
    simp only [Machine.switched] at hx
    by_cases hr : t'' = t'
    · rw [hr, Function.update_self] at hx
      cases hx
    rw [Function.update_of_ne hr] at hx
    by_cases hl : t'' = t
    · rw [hl, Function.update_self] at hx
      cases hx
      subst hl
      refine ⟨hrun, ?_⟩
      rw [hsave]
      exact saved_save contextSlots_fit
    · rw [Function.update_of_ne hl] at hx
      obtain ⟨h2, h3⟩ := hi.left t'' x hx
      refine ⟨fun h' => ?_, h3.congr contextSlots_fit.1 fun a ha hb =>
        hsame a (hctx t'' hl a ⟨ha, hb⟩)⟩
      rcases hother h' with he | he
      · exact fun hc => hr (hc.symm.trans he)
      · exact fun hc => h2 h' (he.symm.trans hc)
  · rw [hkept]
    simp only [Machine.switched]
    by_cases hr : t'' = t'
    · rw [hr, Function.update_self]
      refine ⟨hi.kept t', fun x hx c hc => ?_⟩
      have hs : Saved (save m.mem ((m.core h).x .a0).toNat (m.core h).x contextSlots)
          ((m.core h).x .a1).toNat x contextSlots := by
        rw [h0, h1, ← hsave]
        exact (hi.left t' x hx).2.congr contextSlots_fit.1 fun a ha hb =>
          hsame a (hctx t' ht a ⟨ha, hb⟩)
      rw [run_swtch (by rw [h0]; exact hfit) (by rw [h1]; exact P.fits t') hs]
      exact if_pos (List.mem_map_of_mem hc)
    · rw [Function.update_of_ne hr]
      exact hi.kept t''
  · have hok := hi.entry t'' e (hent ▸ he)
    exact hok.congr (congrFun hloc t'') fun a ha => hsame a (hok.apart a ha t)

/-- What `kerneltrap` does after the call, seen from outside. -/
theorem Machine.returned_frame (m : Machine n) (h : Fin n) (l : Locals) :
    (m.returned h l).mem = m.mem ∧ ((m.returned h l).core h).x .tp = (m.core h).x .tp ∧
      ∀ h', h' ≠ h → (m.returned h l).core h' = m.core h' := by
  obtain ⟨h1, h2⟩ := run_kerneltrapExit_frame
    (((m.core h).setCsr .sepc l.sepc).setCsr .sstatus l.sstatus) m.mem
  simp only [Machine.returned, Machine.setCore]
  refine ⟨h1, ?_, fun h' hh => Function.update_of_ne hh _ _⟩
  rw [Function.update_self]
  exact h2

/-- The frame is given up. -/
theorem Store.returned (hi : Store P m) {l : Locals}
    (hb : ∀ h', m'.base.thread h' = m.base.thread h') (hl : m'.left = m.left) (hk : m'.kept = m.kept)
    (hmem : m'.mem = (m.returned h l).mem) (hloc : m'.locals = (m.returned h l).locals)
    (hent : m'.entry = (m.returned h l).entry) : Store P m' := by
  refine hi.stay hb (fun a _ => ?_) (fun t x hx => hl ▸ hx) hk fun t e he => ?_
  · rw [hmem, (m.returned_frame h l).1]
  · simp only [Machine.returned] at hloc hent
    rw [hent] at he
    by_cases ht : t = m.base.thread h
    · rw [ht, Function.update_self] at he
      cases he
    · rw [Function.update_of_ne ht] at he
      rw [hloc, Function.update_of_ne ht]
      exact ⟨he, rfl⟩

theorem Machine.entry_returned {t : Thread n} (ht : t ≠ m.base.thread h) (l : Locals) :
    (m.returned h l).entry t = m.entry t := by
  simp only [Machine.returned]
  exact Function.update_of_ne ht _ _

/-- **What `kerneltrap` returns to** is what it has saved. -/
theorem Store.resumed (hi : Store P m) {l : Locals} {e : Entry}
    (hl : m.locals (m.base.thread h) = some l) (he : m.entry (m.base.thread h) = some e)
    (hcall : m.kept (m.base.thread h) → ∀ r ∈ calleeSaved, (m.core h).x r = e.called r) :
    (m.returned h l).pc h = e.pc ∧ (∀ r, r ≠ .tp → ((m.returned h l).core h).x r = e.x r) ∧
      ((m.returned h l).core h).csr .sstatus = sretStatus e.sstatus := by
  have hok := hi.entry _ e he
  obtain rfl : ⟨e.pc, e.sstatus⟩ = l := Option.some.inj (hok.locals.symm.trans hl)
  -- of what the convention promises only `sp` is needed: the frame is found through it
  have hsp : (m.core h).x .sp = e.x .sp + BitVec.ofInt 32 (-128) :=
    (hcall (hi.kept _) .sp (by decide)).trans hok.sp
  have hbase : ((m.core h).x .sp).toNat = (e.x .sp).toNat - 128 := by
    rw [hsp]
    exact toNat_sub_frame hok.room
  have hlt := (e.x .sp).isLt
  generalize hc : ((m.core h).setCsr .sepc e.pc).setCsr .sstatus e.sstatus = c
  have hx : c.x = (m.core h).x := by
    rw [← hc]
    rfl
  have hcsr : c.csr .sepc = e.pc ∧ c.csr .sstatus = e.sstatus := by
    rw [← hc]
    simp [Core.setCsr]
  have hrun := run_kerneltrapExit (c := c) (m := m.mem) (x := e.x) (by rw [hx, hbase]; omega)
    (by rw [hx, hbase]; exact hok.saved)
  simp only [Machine.returned, Machine.setCore, hc, hrun, Function.update_self]
  refine ⟨hcsr.1, fun r hr => ?_, ?_⟩
  · simp only [Core.setCsr, if_neg hr]
    by_cases h1 : r = .sp
    · rw [if_pos h1, h1, hx, hsp, BitVec.add_assoc]
      rw [show BitVec.ofInt 32 (-128) + BitVec.ofInt 32 128 = 0#32 by decide, BitVec.add_zero]
    · rw [if_neg h1]
  · simp [Core.setCsr, hcsr.2]

theorem Machine.owed_returned {t : Thread n} {l : Locals} (he : (m.returned h l).entry t ≠ none) :
    t ≠ m.base.thread h ∧ m.entry t ≠ none := by
  have ht : t ≠ m.base.thread h := by
    rintro rfl
    simp only [Machine.returned] at he
    exact he (Function.update_self ..)
  rw [Machine.entry_returned ht] at he
  exact ⟨ht, he⟩

/-! ### One step -/

structure Inv (P : Places n) (m : Machine n) : Prop extends Regs m, Store P m, Live m

theorem Live.step (hi : Live m) (hinv : Sched.Inv m.base) {c : Choice} (hn : next m.base h c = some m'.base)
    (hside : m.side h = false) (hs : m'.side = m.side)
    (hent : ∀ h', h' ≠ h → m.entry (m.base.thread h') ≠ none → m'.entry (m.base.thread h') ≠ none)
    (hfr : ∀ t, (m'.base.pcAt t).frames ≠ [] → m'.entry t ≠ none)
    (howed : ∀ t, m'.entry t ≠ none → (m'.base.pcAt t).frames ≠ [] ∨
      m.entry t ≠ none ∧ (m'.base.pcAt t).frames = (m.base.pcAt t).frames) : Live m' := by
  have hst := next_step hn
  have hother : ∀ h', m.side h' = true → h' ≠ h ∧ m'.base.thread h' = m.base.thread h' := by
    intro h' ht
    have hh : h' ≠ h := by
      rintro rfl
      exact absurd (hside.symm.trans ht) nofun
    refine ⟨hh, ?_⟩
    rw [Sched.State.thread, Sched.State.thread, hst.cur_ne hh]
  refine ⟨hfr, fun h' ht => ?_, fun t ht => ?_⟩
  · rw [hs] at ht
    obtain ⟨hh, hth⟩ := hother h' ht
    obtain ⟨h1, h2⟩ := hi.side h' ht
    rw [hth, hst.cpus_ne hh, hinv.pcOf_step hst hh]
    exact ⟨hent h' hh h1, h2⟩
  · rcases howed t ht with hf | ⟨h1, h2⟩
    · exact .inl hf
    · rcases hi.owed t h1 with hf | ⟨h', ht', rfl⟩
      · exact .inl (h2 ▸ hf)
      · exact .inr ⟨h', hs ▸ ht', (hother h' ht').2⟩

/-- Where the hart does not call `swtch`, every hart stays on its stack. -/
theorem thread_next {c : Choice} (hn : next m.base h c = some s)
    (hth : s.thread h = m.base.thread h) (h' : Fin n) : s.thread h' = m.base.thread h' := by
  by_cases hh : h' = h
  · rw [hh, hth]
  · rw [Sched.State.thread, Sched.State.thread, (next_step hn).cur_ne hh]

theorem thread_stays {c : Choice} (hg : Sched.go m.base h c = some s)
    (hsw : ¬AtSwtch (m.base.pcOf h)) : s.thread h = m.base.thread h := by
  simp only [AtSwtch, not_or, not_exists] at hsw
  exact thread_go hg hsw.1 hsw.2

theorem thread_sret {k : Pc} (hp : m.base.pcOf h = .sret k) (hg : Sched.go m.base h .go = some s) :
    s.thread h = m.base.thread h := by
  refine thread_stays hg ?_
  simp [hp, AtSwtch, Leaves]

/-! What is left of a thread when its slot gets a new one. -/

section Forget

variable {o : Option Slot}

@[simp] theorem base_forget : (m.forget o).base = m.base := by cases o <;> rfl

@[simp] theorem core_forget : (m.forget o).core = m.core := by cases o <;> rfl

@[simp] theorem mem_forget : (m.forget o).mem = m.mem := by cases o <;> rfl

@[simp] theorem side_forget : (m.forget o).side = m.side := by cases o <;> rfl

@[simp] theorem kept_forget : (m.forget o).kept = m.kept := by cases o <;> rfl

@[simp] theorem sscratch_forget : (m.forget o).sscratch = m.sscratch := by cases o <;> rfl

@[simp] theorem kHartid_forget : (m.forget o).kHartid = m.kHartid := by cases o <;> rfl

theorem left_forget {t : Thread n} {x : Reg → Word} (hx : (m.forget o).left t = some x) :
    m.left t = some x := by
  cases o with
  | none => exact hx
  | some i =>
      by_cases ht : t = .proc i
      · rw [ht] at hx
        exact absurd (hx.symm.trans (Function.update_self ..)) nofun
      · exact (Function.update_of_ne ht _ _).symm.trans hx

theorem entry_forget {t : Thread n} (ht : ∀ i, o = some i → t ≠ .proc i) :
    (m.forget o).entry t = m.entry t ∧ (m.forget o).locals t = m.locals t := by
  cases o with
  | none => exact ⟨rfl, rfl⟩
  | some i => exact ⟨Function.update_of_ne (ht i rfl) _ _, Function.update_of_ne (ht i rfl) _ _⟩

theorem entry_forget_self (i : Slot) : (m.forget (some i)).entry (.proc i) = none :=
  Function.update_self ..

theorem prepares_eq {pc : Pc} {c : Choice} {i : Slot} (hp : prepares pc c = some i) :
    c ≠ .fail ∧ ∃ p, pc = .paAlloc p i := by
  unfold prepares at hp
  split at hp
  · split_ifs at hp with hc
    cases hp
    exact ⟨hc, _, rfl⟩
  · cases hp

/-- The new thread starts in `forkret`. -/
theorem pcAt_prepared {i : Slot} {c : Choice} (hi : Sched.Inv m.base)
    (hp : prepares (m.base.pcOf h) c = some i) (hg : Sched.go m.base h c = some s) :
    s.pcAt (.proc i) = .forkret i := by
  obtain ⟨hc, p, hpc⟩ := prepares_eq hp
  simp only [Sched.go, hpc, if_neg hc] at hg
  cases hg
  have hne : m.base.thread h ≠ .proc i := Firsts.paAlloc_ne hi hpc
  rw [State.pcAt_setPc, if_neg fun he => hne he.symm]
  exact Function.update_self ..

end Forget

namespace Inv

variable {c : Choice}

theorem compute (hi : Inv P m) {core : Core} {pc : Word} {mem : Bytes} {ks : Slot → Word}
    (htp : m.base.pcOf h ≠ .user → core.x .tp = (m.core h).x .tp)
    (hmem : ∀ a, m.Reserved P a → mem a = m.mem a)
    (hks : ∀ q, m.base.tpc q = .user → ks q = m.kHartid q) :
    Inv P { m.setCore h core with
      pc := Function.update m.pc h pc
      mem := mem
      kHartid := ks } := by
  refine ⟨⟨hi.reach, fun h' hp => ?_, fun h' hp => ?_⟩,
    hi.toStore.stay (fun _ => rfl) hmem (fun _ _ => id) rfl fun _ _ he => ⟨he, rfl⟩,
    ⟨hi.frames, hi.side, hi.owed⟩⟩
  · change (Function.update m.core h core h').x .tp = _
    by_cases hh : h' = h
    · subst hh
      rw [Function.update_self, htp hp]
      exact hi.tp h' hp
    · rw [Function.update_of_ne hh]
      exact hi.tp h' hp
  · obtain ⟨p, hu, h1, h2⟩ := hi.user h' hp
    refine ⟨p, hu, h1, (hks p ?_).trans h2⟩
    rw [← m.base.pcOf_some hu]
    exact hp

theorem go (hi : Inv P m) (hside : m.side h = false) (hc : c ≠ .timer)
    (hret : m.base.pcOf h ≠ .utrapret) (hu : m.base.pcOf h ≠ .user)
    (hsret : ∀ k, m.base.pcOf h ≠ .sret k) (hsw : ¬AtSwtch (m.base.pcOf h))
    (hg : Sched.go m.base h c = some s) :
    Inv P ({ m with base := s }.forget (prepares (m.base.pcOf h) c)) := by
  have hinv := inv_reachable hi.reach
  have hn : next m.base h c = some s := by rwa [next_of_ne_timer hc]
  have hth := thread_stays hg hsw
  generalize ho : prepares (m.base.pcOf h) c = o
  have hgone : ∀ i, o = some i → ∀ h', m.base.thread h' ≠ .proc i := by
    rintro i rfl h'
    obtain ⟨-, p, hp⟩ := prepares_eq ho
    exact Firsts.paAlloc_ne hinv hp
  have hfr : ∀ t, (∀ i, o = some i → t ≠ .proc i) →
      (s.pcAt t).frames = (m.base.pcAt t).frames := by
    intro t hne
    by_cases hall : ∃ p i, m.base.pcOf h = .paAlloc p i
    · obtain ⟨p, i, hp⟩ := hall
      rcases frames_paAlloc hp hg t with he | ⟨⟨hf, rfl⟩, -⟩
      · exact he
      · refine absurd rfl (hne i ?_)
        rw [← ho, hp, prepares, if_neg hf]
    · simp only [not_exists] at hall
      exact hinv.frames_go hg hsret hall t
  refine ⟨hi.toRegs.step (base_forget ..) hn (fun _ _ => by simp) (fun _ _ => by simp)
    (fun _ _ _ _ => by simp) (fun _ => ?_) (fun hp => ?_), hi.toStore.stay (fun h' => ?_) (by simp)
    (fun t x => left_forget) (by simp) (fun t e he => ?_),
    hi.toLive.step hinv (h := h) (c := c) (by simpa using hn) hside (by simp) (fun h' _ hne => ?_)
      (fun t hf => ?_) (fun t he => ?_)⟩
  · simpa using hi.tp h hu
  · exact absurd (user_entered hi.reach hn hth hp) hret
  · rw [base_forget]
    exact thread_next hn hth h'
  · by_cases hti : ∃ i, o = some i ∧ t = .proc i
    · obtain ⟨i, rfl, rfl⟩ := hti
      rw [entry_forget_self] at he
      cases he
    · obtain ⟨h1, h2⟩ := entry_forget (m := { m with base := s }) (t := t)
        fun i hoi he => hti ⟨i, hoi, he⟩
      exact ⟨h1.symm.trans he, h2⟩
  · rwa [(entry_forget fun i hoi => hgone i hoi h').1]
  · rw [base_forget] at hf
    have hne : ∀ i, o = some i → t ≠ .proc i := by
      rintro i rfl rfl
      rw [pcAt_prepared hinv ho hg] at hf
      exact hf rfl
    rw [(entry_forget hne).1]
    exact hi.frames t (hfr t hne ▸ hf)
  · have hne : ∀ i, o = some i → t ≠ .proc i := by
      rintro i rfl rfl
      exact he (entry_forget_self i)
    rw [(entry_forget hne).1] at he
    rw [base_forget]
    exact .inr ⟨he, hfr t hne⟩

theorem swtch (hi : Inv P m) (hside : m.side h = false) (hsw : AtSwtch (m.base.pcOf h))
    (hg : Sched.go m.base h .go = some s)
    (h0 : ((m.core h).x .a0).toNat = P.ctx (m.base.thread h))
    (h1 : ((m.core h).x .a1).toNat = P.ctx (s.thread h)) :
    Inv P { m.switched h (m.base.thread h) (s.thread h) with base := s } := by
  have hinv := inv_reachable hi.reach
  have hn : next m.base h .go = some s := hg
  have hs := next_step hn
  have hinv' := step_inv hinv hs
  obtain ⟨hne, hnu⟩ := hinv.thread_swtch hg hsw
  have hother : ∀ h', h' ≠ h → s.thread h' = m.base.thread h' := by
    intro h' hh
    rw [Sched.State.thread, Sched.State.thread, hs.cur_ne hh]
  have hu : m.base.pcOf h ≠ .user := by
    rintro he
    rcases hsw with ⟨i, hp⟩ | ⟨k, hp | ⟨p, hp, -⟩⟩ <;> rw [he] at hp <;> cases hp
  have hfr : ∀ t, (s.pcAt t).frames = (m.base.pcAt t).frames := by
    refine hinv.frames_go hg (fun k he => ?_) (fun p i he => ?_) <;>
    · rcases hsw with ⟨i, hp⟩ | ⟨k, hp | ⟨p, hp, -⟩⟩ <;> rw [he] at hp <;> cases hp
  refine ⟨hi.toRegs.step rfl hn (fun h' hh => Function.update_of_ne hh _ _) (fun _ _ => rfl)
    (fun _ _ _ _ => rfl) (fun _ => ?_) (fun hp => absurd hp hnu),
    hi.toStore.switched hne h0 h1 (fun h' => ?_) (fun h' => ?_) rfl rfl rfl rfl rfl,
    hi.toLive.step hinv hn hside rfl (fun _ _ => id) (fun t hf => hi.frames t (hfr t ▸ hf))
      (fun t he => .inr ⟨he, hfr t⟩)⟩
  · change (Function.update m.core h _ h).x .tp = _
    rw [Function.update_self, (run_swtch_mem (by rw [h0]; exact P.fits _)).2 _ (by decide)]
    exact hi.tp h hu
  · by_cases hh : h' = h
    · rw [hh]
      exact hne
    · change s.thread h' ≠ _
      rw [hother h' hh]
      exact hinv.thread_ne hh
  · by_cases hh : h' = h
    · rw [hh]
      exact .inl rfl
    · exact .inr (hother h' hh)

theorem usertrap (hi : Inv P m) (hside : m.side h = false) (hp : m.base.pcOf h = .user)
    (hn : next m.base h c = some s) {p : Slot} {core : Core} (hscr : m.sscratch h = some p)
    (htp : core.x .tp = m.kHartid p) : Inv P { m.setCore h core with base := s } := by
  have hinv := inv_reachable hi.reach
  obtain ⟨hth, hfr⟩ : s.thread h = m.base.thread h ∧
      ∀ t, (s.pcAt t).frames = (m.base.pcAt t).frames := by
    by_cases hc : c = .timer
    · subst hc
      obtain ⟨k, -, he, -⟩ := hinv.timer_silent hn
      refine ⟨?_, fun t => ?_⟩
      · rw [he]
        simp [State.thread, State.setSie, State.setCpu]
      · rw [timer_frames hinv hn, if_neg fun hc => hc.2 hp]
    · rw [next_of_ne_timer hc] at hn
      refine ⟨thread_stays hn ?_, hinv.frames_go hn ?_ ?_⟩
      · simp [hp, AtSwtch, Leaves]
      · simp [hp]
      · simp [hp]
  obtain ⟨q, hu, h1, h2⟩ := hi.user h hp
  obtain rfl : p = q := Option.some.inj (hscr.symm.trans h1)
  refine ⟨hi.toRegs.step rfl hn (fun h' hh => Function.update_of_ne hh _ _) (fun _ _ => rfl)
    (fun _ _ _ _ => rfl) (fun _ => ?_) (fun hp' => ?_),
    hi.toStore.stay (thread_next hn hth) (fun _ _ => rfl) (fun _ _ => id) rfl (fun _ _ he => ⟨he, rfl⟩),
    hi.toLive.step hinv hn hside rfl (fun _ _ => id) (fun t hf => hi.frames t (hfr t ▸ hf))
      (fun t he => .inr ⟨he, hfr t⟩)⟩
  · change (Function.update m.core h core h).x .tp = _
    rw [Function.update_self, htp, h2]
  · have he := user_entered hi.reach hn hth hp'
    rw [hp] at he
    cases he

theorem utrapret (hi : Inv P m) (hside : m.side h = false) (hp : m.base.pcOf h = .utrapret)
    (hg : Sched.go m.base h .go = some s) {p : Slot} (hc : m.base.cproc h = some p) {core : Core} :
    Inv P { m.setCore h core with
      base := s
      sscratch := Function.update m.sscratch h (some p)
      kHartid := Function.update m.kHartid p ((m.core h).x .tp) } := by
  have hinv := inv_reachable hi.reach
  have hn : next m.base h .go = some s := hg
  have hu : m.base.cur h = some p := by
    have hw := hinv.wf h
    rw [hp] at hw
    obtain ⟨q, hq⟩ := Option.ne_none_iff_exists'.1 hw
    rw [hq, ← hc, (hinv.cur h q hq).2]
  have hth : s.thread h = m.base.thread h := thread_stays hg (by simp [hp, AtSwtch, Leaves])
  have hfr : ∀ t, (s.pcAt t).frames = (m.base.pcAt t).frames := by
    apply hinv.frames_go hg <;> simp [hp]
  have huser : s.pcOf h = .user ∧ s.cur h = some p := by
    simp only [Sched.go, hp] at hg
    cases hg
    refine ⟨State.pcOf_setPc_self .., ?_⟩
    simpa [State.setSie, State.setCpu] using hu
  refine ⟨hi.toRegs.step rfl hn (fun h' hh => Function.update_of_ne hh _ _)
    (fun h' hh => Function.update_of_ne hh _ _) (fun h' q hh hq => Function.update_of_ne ?_ _ _)
    (fun hne => absurd huser.1 hne) (fun _ => ⟨p, huser.2, Function.update_self .., ?_⟩),
    hi.toStore.stay (thread_next hn hth) (fun _ _ => rfl) (fun _ _ => id) rfl (fun _ _ he => ⟨he, rfl⟩),
    hi.toLive.step hinv hn hside rfl (fun _ _ => id) (fun t hf => hi.frames t (hfr t ▸ hf))
      (fun t he => .inr ⟨he, hfr t⟩)⟩
  · rintro rfl
    exact hh (hinv.cur_inj hq hu)
  · refine (Function.update_self ..).trans (hi.tp h ?_)
    rw [hp]
    simp

theorem timer (hi : Inv P m) (hside : m.side h = false) (hu : m.base.pcOf h ≠ .user)
    (hsp : 128 ≤ ((m.core h).x .sp).toNat)
    (hfree : ∀ a, ((m.core h).x .sp).toNat - 128 ≤ a → a < ((m.core h).x .sp).toNat →
      ¬m.Reserved P a ∧ ∀ t, ¬P.Ctx t a) {scause : Word} (ht : Sched.timer m.base h = some s) :
    Inv P { m.interrupted h scause with base := s } := by
  have hinv := inv_reachable hi.reach
  have hn : next m.base h .timer = some s := ht
  have hcore := Machine.core_interrupted hsp scause
  obtain ⟨hnew, hold⟩ := Machine.entry_interrupted m h scause
  have hth : s.thread h = m.base.thread h := by
    obtain ⟨k, -, he, -⟩ := hinv.timer_silent ht
    rw [he]
    simp [State.thread, State.setSie, State.setCpu]
  have hfr : ∀ t, t ≠ m.base.thread h → (s.pcAt t).frames = (m.base.pcAt t).frames := by
    intro t hne
    rw [timer_frames hinv ht, if_neg fun hc => hne hc.1]
  refine ⟨hi.toRegs.step rfl hn (fun h' hh => ?_) (fun _ _ => rfl) (fun _ _ _ _ => rfl) (fun _ => ?_)
    (fun hp => absurd hp (timer_ne_user ht)),
    hi.toStore.interrupted hsp hfree (funext (thread_next hn hth)) rfl rfl rfl rfl rfl,
    hi.toLive.step hinv hn hside rfl (fun h' _ => hold _) (fun t hf => ?_) (fun t he => ?_)⟩
  · change (m.interrupted h scause).core h' = _
    rw [hcore, Function.update_of_ne hh]
  · change ((m.interrupted h scause).core h).x .tp = _
    rw [hcore, Function.update_self, calledWith_tp]
    exact hi.tp h hu
  · by_cases hne : t = m.base.thread h
    · rw [hne]
      exact hnew
    · exact hold t (hi.frames t (hfr t hne ▸ hf))
  · by_cases hne : t = m.base.thread h
    · refine .inl ?_
      change (s.pcAt t).frames ≠ []
      rw [timer_frames hinv ht, if_pos ⟨hne, hu⟩]
      simp
    · refine .inr ⟨?_, hfr t hne⟩
      rwa [← Machine.entry_interrupted_of_ne hne scause]

theorem other (hi : Inv P m) (hu : m.base.pcOf h ≠ .user) (hsie : (m.base.cpus h).sie = true)
    (hsp : 128 ≤ ((m.core h).x .sp).toNat)
    (hfree : ∀ a, ((m.core h).x .sp).toNat - 128 ≤ a → a < ((m.core h).x .sp).toNat →
      ¬m.Reserved P a ∧ ∀ t, ¬P.Ctx t a) {scause : Word} :
    Inv P { m.interrupted h scause with side := Function.update m.side h true } := by
  have hcore := Machine.core_interrupted hsp scause
  obtain ⟨hnew, hold⟩ := Machine.entry_interrupted m h scause
  refine ⟨⟨hi.reach, fun h' hp => ?_, hi.user⟩,
    hi.toStore.interrupted hsp hfree rfl rfl rfl rfl rfl rfl,
    ⟨fun t hf => hold t (hi.frames t hf), fun h' hs => ?_, fun t he => ?_⟩⟩
  · change ((m.interrupted h scause).core h').x .tp = _
    rw [hcore]
    by_cases hh : h' = h
    · rw [hh, Function.update_self, calledWith_tp]
      exact hi.tp h hu
    · rw [Function.update_of_ne hh]
      exact hi.tp h' hp
  · by_cases hh : h' = h
    · rw [hh]
      exact ⟨hnew, hsie, hu⟩
    · obtain ⟨h1, h2⟩ := hi.side h' ((Function.update_of_ne hh _ _).symm.trans hs)
      exact ⟨hold _ h1, h2⟩
  · by_cases hne : t = m.base.thread h
    · exact .inr ⟨h, Function.update_self .., hne.symm⟩
    · rw [show _ = _ from Machine.entry_interrupted_of_ne hne scause] at he
      rcases hi.owed t he with hf | ⟨h', hs, rfl⟩
      · exact .inl hf
      · have hh : h' ≠ h := by
          rintro rfl
          exact hne rfl
        exact .inr ⟨h', (Function.update_of_ne hh _ _).trans hs, rfl⟩

theorem unexpected (hi : Inv P m) (f : Fin n → Bool) : Inv P { m with panicked := f } := by
  refine ⟨⟨hi.reach, hi.tp, hi.user⟩, hi.toStore.stay (fun _ => rfl) (fun _ _ => rfl) (fun _ _ => id)
    rfl fun _ _ he => ⟨he, rfl⟩, ⟨hi.frames, hi.side, hi.owed⟩⟩

theorem sret (hi : Inv P m) (hside : m.side h = false) {k : Pc} (hp : m.base.pcOf h = .sret k)
    (hg : Sched.go m.base h .go = some s) {l : Locals} :
    Inv P { m.returned h l with base := s } := by
  have hinv := inv_reachable hi.reach
  have hn : next m.base h .go = some s := hg
  have hth := thread_sret hp hg
  obtain ⟨-, htp, hother⟩ := m.returned_frame h l
  have hfr : ∀ t, (s.pcAt t).frames = if t = m.base.thread h then [] else (m.base.pcAt t).frames :=
    (handled_reachable hi.reach).frames_sret hp hg
  refine ⟨hi.toRegs.step rfl hn hother (fun _ _ => rfl) (fun _ _ _ _ => rfl) (fun _ => ?_) (fun hu => ?_),
    hi.toStore.returned (thread_next hn hth) rfl rfl rfl rfl rfl,
    hi.toLive.step hinv hn hside rfl (fun h' hh hne => ?_) (fun t hf => ?_) (fun t he => ?_)⟩
  · refine htp.trans (hi.tp h ?_)
    rw [hp]
    exact nofun
  · have he := user_entered hi.reach hn hth hu
    rw [hp] at he
    cases he
  · change (m.returned h l).entry _ ≠ none
    rwa [Machine.entry_returned (hinv.thread_ne hh)]
  · change (s.pcAt t).frames ≠ [] at hf
    rw [hfr] at hf
    by_cases ht : t = m.base.thread h
    · rw [if_pos ht] at hf
      exact absurd rfl hf
    · rw [if_neg ht] at hf
      change (m.returned h l).entry t ≠ none
      rw [Machine.entry_returned ht]
      exact hi.frames t hf
  · obtain ⟨ht, h0⟩ := Machine.owed_returned (l := l) he
    refine .inr ⟨h0, ?_⟩
    exact (hfr t).trans (if_neg ht)

theorem otherRet (hi : Inv P m) (hside : m.side h = true) {l : Locals} :
    Inv P { m.returned h l with side := Function.update m.side h false } := by
  have hinv := inv_reachable hi.reach
  obtain ⟨-, htp, hother⟩ := m.returned_frame h l
  obtain ⟨-, hsie, -⟩ := hi.side h hside
  refine ⟨⟨hi.reach, fun h' hp => ?_, hi.user⟩,
    hi.toStore.returned (fun _ => rfl) rfl rfl rfl rfl rfl,
    ⟨fun t hf => ?_, fun h' hs => ?_, fun t he => ?_⟩⟩
  · by_cases hh : h' = h
    · subst hh
      exact htp.trans (hi.tp h' hp)
    · refine (congrArg (fun c : Core => c.x .tp) (hother h' hh)).trans (hi.tp h' hp)
  · -- with interrupts on the thread is in no other handler
    have ht : t ≠ m.base.thread h := by
      rintro rfl
      change (m.base.pcAt (m.base.thread h)).frames ≠ [] at hf
      rw [State.pcAt_thread, (handled_reachable hi.reach).frames_of_sie hsie] at hf
      exact hf rfl
    change (m.returned h l).entry t ≠ none
    rw [Machine.entry_returned ht]
    exact hi.frames t hf
  · by_cases hh : h' = h
    · rw [hh] at hs
      exact absurd ((Function.update_self ..).symm.trans hs) nofun
    · obtain ⟨h1, h2⟩ := hi.side h' ((Function.update_of_ne hh _ _).symm.trans hs)
      refine ⟨?_, h2⟩
      change (m.returned h l).entry (m.base.thread h') ≠ none
      rwa [Machine.entry_returned (hinv.thread_ne hh)]
  · obtain ⟨ht, h0⟩ := Machine.owed_returned (l := l) he
    rcases hi.owed t h0 with hf | ⟨h', hs, rfl⟩
    · exact .inl hf
    · have hh : h' ≠ h := by
        rintro rfl
        exact ht rfl
      exact .inr ⟨h', (Function.update_of_ne hh _ _).trans hs, rfl⟩

theorem start (hb : m.Boots) : Inv P m := by
  obtain ⟨hbase, htp, hside, hent, hleft, hkept⟩ := hb
  have hpc : ∀ h, m.base.pcOf h ≠ .user := by
    intro h
    rw [hbase]
    exact nofun
  refine ⟨⟨hbase ▸ .start rfl, fun h _ => htp h, fun h hp => absurd hp (hpc h)⟩,
    ⟨fun t x hx => absurd ((hleft t).symm.trans hx) nofun, hkept,
      fun t e he => absurd ((hent t).symm.trans he) nofun,
      fun t _ e _ _ _ he => absurd ((hent t).symm.trans he) nofun⟩,
    ⟨fun t hf => ?_, fun h hs => absurd ((hside h).symm.trans hs) nofun,
      fun t he => absurd (hent t) he⟩⟩
  rw [hbase] at hf
  exact absurd (by cases t <;> rfl) hf

theorem step {a : Act} (hi : Inv P m) (hs : Step P m h a m') : Inv P m' := by
  cases hs with
  | compute core pc mem ks htp hmem hks => exact hi.compute htp hmem hks
  | go c s hside hc hu hret hsret hsw hg => exact hi.go hside hc hret hu hsret hsw hg
  | swtch s hside hsw hg h0 h1 => exact hi.swtch hside hsw hg h0 h1
  | usertrap c s p core hside hp hn hscr htp => exact hi.usertrap hside hp hn hscr htp
  | utrapret s p core hside hp hg hc => exact hi.utrapret hside hp hg hc
  | timer scause s hside hu hsp hfree _ ht => exact hi.timer hside hu hsp hfree ht
  | other scause d _ hu hsie hsp hfree _ _ => exact hi.other hu hsie hsp hfree
  | unexpected _ _ _ _ => exact hi.unexpected _
  | sret l e s k hside hp hg _ _ _ => exact hi.sret hside hp hg
  | otherRet l e hside _ _ _ => exact hi.otherRet hside

/-- A thread is not interrupted again before it has returned. -/
theorem entry_none (hi : Inv P m) (hside : m.side h = false) (hsie : (m.base.cpus h).sie = true) :
    m.entry (m.base.thread h) = none := by
  by_contra he
  rcases hi.owed _ he with hf | ⟨h', hs, hth⟩
  · rw [State.pcAt_thread, (handled_reachable hi.reach).frames_of_sie hsie] at hf
    exact hf rfl
  · by_cases hh : h' = h
    · rw [hh, hside] at hs
      cases hs
    · exact (inv_reachable hi.reach).thread_ne hh hth

/-- Its slot is not given to another thread. -/
theorem entry_prepared (hi : Inv P m) {i : Slot} (hp : prepares (m.base.pcOf h) c = some i) :
    m.entry (.proc i) = none := by
  have hinv := inv_reachable hi.reach
  obtain ⟨-, p, hpc⟩ := prepares_eq hp
  by_contra he
  rcases hi.owed _ he with hf | ⟨h', -, hth⟩
  · obtain ⟨hnew, -⟩ := hinv.claim_own (h := h) (i := i) (b := false) (by rw [hpc]; rfl)
    exact (live_of_frames hi.reach hf).1.2 hnew
  · exact Firsts.paAlloc_ne hinv hpc hth

/-- **Only its own `sret` ends an interrupt.** -/
theorem entry_step (hi : Inv P m) {a : Act} (hs : Step P m h a m') {t : Thread n} {e : Entry}
    (he : m.entry t = some e) (ha : ¬(a = .sret ∧ m.base.thread h = t)) : m'.entry t = some e := by
  have hint : m.side h = false → (m.base.cpus h).sie = true → t ≠ m.base.thread h := by
    rintro hside hsie rfl
    rw [hi.entry_none hside hsie] at he
    cases he
  cases hs with
  | compute | swtch | usertrap | utrapret | unexpected => exact he
  | go c s _ _ _ _ _ _ _ =>
      refine (entry_forget fun i hp => ?_).1.trans he
      rintro rfl
      rw [hi.entry_prepared hp] at he
      cases he
  | timer scause s hside _ _ _ _ ht =>
      have hsie : (m.base.cpus h).sie = true := by
        by_contra hoff
        rw [Sched.timer, if_neg hoff] at ht
        cases ht
      exact (Machine.entry_interrupted_of_ne (hint hside hsie) scause).trans he
  | other scause d hside _ hsie _ _ _ _ =>
      exact (Machine.entry_interrupted_of_ne (hint hside hsie) scause).trans he
  | sret l _ s k _ _ _ _ _ _ =>
      exact (Machine.entry_returned (fun ht => ha ⟨rfl, ht.symm⟩) l).trans he
  | otherRet l _ _ _ _ _ =>
      exact (Machine.entry_returned (fun ht => ha ⟨rfl, ht.symm⟩) l).trans he

/-- A return from the interrupt `e`. -/
theorem resumed (hi : Inv P m) (hs : Step P m h .sret m') {e : Entry}
    (he : m.entry (m.base.thread h) = some e) :
    m'.base.thread h = m.base.thread h ∧ m'.pc h = e.pc ∧
      (∀ r, r ≠ .tp → (m'.core h).x r = e.x r) ∧ (m'.core h).x .tp = BitVec.ofNat 32 h ∧
      (m'.core h).csr .sstatus = sretStatus e.sstatus := by
  cases hs with
  | sret l e' s k hside hp hg hl he' hcall =>
      obtain rfl : e = e' := Option.some.inj (he.symm.trans he')
      obtain ⟨hpc, hx, hst⟩ := hi.toStore.resumed hl he hcall
      refine ⟨thread_sret hp hg, hpc, hx, (m.returned_frame h l).2.1.trans (hi.tp h ?_), hst⟩
      rw [hp]
      exact nofun
  | otherRet l e' hside hl he' hcall =>
      obtain rfl : e = e' := Option.some.inj (he.symm.trans he')
      obtain ⟨hpc, hx, hst⟩ := hi.toStore.resumed hl he hcall
      obtain ⟨-, -, hu⟩ := hi.side h hside
      exact ⟨rfl, hpc, hx, (m.returned_frame h l).2.1.trans (hi.tp h hu), hst⟩

theorem of_reachable (hr : (machine P).Reachable m) : Inv P m := by
  refine hr.invariant (fun m₀ hb => ?_) fun m₀ a m₁ _ hi hs => ?_
  · exact start hb
  · exact hi.step hs.2

end Inv

end Steps

/-! ## The result -/

/-- A step other than the return of thread `t` from its interrupt. -/
def Meanwhile (t : Thread n) (m m' : Machine n) : Prop :=
  ∃ a, (machine P).step m a m' ∧ ¬(a.2 = .sret ∧ m.base.thread a.1 = t)

variable {P} in
theorem reachable_meanwhile {t : Thread n} {m m' : Machine n} (hr : (machine P).Reachable m)
    (hrun : Relation.ReflTransGen (Meanwhile P t) m m') : (machine P).Reachable m' := by
  induction hrun with
  | refl => exact hr
  | tail _ hs ih =>
      obtain ⟨a, hs, -⟩ := hs
      exact ih.next hs

variable {P} in
theorem Inv.entry_meanwhile {t : Thread n} {m m' : Machine n}
    (hr : (machine P).Reachable m) (hrun : Relation.ReflTransGen (Meanwhile P t) m m') {e : Entry}
    (he : m.entry t = some e) : m'.entry t = some e := by
  induction hrun with
  | refl => exact he
  | tail hrun hs ih =>
      obtain ⟨a, hs, ha⟩ := hs
      exact (Inv.of_reachable (reachable_meanwhile hr hrun)).entry_step hs.2 ih ha

/-- **Interrupts in the kernel are transparent.**  Hart `h` takes an interrupt, and harts do
whatever they do; `h'` is the hart on which the interrupted thread gets to the `sret` of
`kerneltrap`. -/
theorem kerneltrap_transparent {m₀ m₁ m₂ m₃ : Machine n} {h h' : Fin n} {scause : Word}
    (hr : (machine P).Reachable m₀) (hin : (machine P).step m₀ (h, .kerneltrap scause) m₁)
    (hok : m₁.panicked h = false)
    (hrun : Relation.ReflTransGen (Meanwhile P (m₀.base.thread h)) m₁ m₂)
    (ht : m₂.base.thread h' = m₀.base.thread h) (hout : (machine P).step m₂ (h', .sret) m₃) :
    m₃.base.thread h' = m₀.base.thread h ∧ m₃.pc h' = m₀.pc h ∧
      (∀ r, r ≠ .tp → (m₃.core h').x r = (m₀.core h).x r) ∧
      (m₃.core h').x .tp = BitVec.ofNat 32 h' ∧
      (m₃.core h').csr .sstatus = sretStatus (trapStatus ((m₀.core h).csr .sstatus)) := by
  obtain ⟨e, he, hx, hpc, hst⟩ : ∃ e, m₁.entry (m₀.base.thread h) = some e ∧
      e.x = (m₀.core h).x ∧ e.pc = m₀.pc h ∧
      e.sstatus = trapStatus ((m₀.core h).csr .sstatus) := by
    cases hin.2 with
    | timer | other =>
        obtain ⟨e, he, -, -, hsaved⟩ := m₀.entry_interrupted_self h scause
        exact ⟨e, he, hsaved⟩
    | unexpected => exact absurd ((Function.update_self ..).symm.trans hok) nofun
  have hr₂ := reachable_meanwhile (hr.next hin) hrun
  have he₂ := Inv.entry_meanwhile (hr.next hin) hrun he
  rw [← ht] at he₂ ⊢
  rw [← hx, ← hpc, ← hst]
  exact (Inv.of_reachable hr₂).resumed hout.2 he₂

/-- Contexts for two harts. -/
def twoPlaces : Places 2 where
  ctx
    | .sched h => 0x2000 + 64 * h
    | .proc p => 0x3000 + 64 * p
  fits t := by
    cases t with
    | sched h => simp only; omega
    | proc p => have := p.isLt; simp only [NPROC] at this ⊢; omega
  apart t t' hne := by
    cases t with
    | sched h =>
        cases t' with
        | sched h' =>
            have : h.val ≠ h'.val := fun he => hne (congrArg _ (Fin.ext he))
            simp only
            omega
        | proc p => simp only; omega
    | proc p =>
        cases t' with
        | sched h => simp only; omega
        | proc p' =>
            have : p.val ≠ p'.val := fun he => hne (congrArg _ (Fin.ext he))
            simp only
            omega

/-- Two harts at the start of `scheduler`. -/
def twoHarts : Machine 2 where
  base := boot 2
  core h := ⟨fun r => if r = .sp then 0x1000 else if r = .tp then BitVec.ofNat 32 h else 7, fun _ => 2⟩
  pc _ := 0x80000000
  mem _ := 0
  panicked _ := false
  side _ := false
  sscratch _ := none
  kHartid _ := 0
  locals _ := none
  entry _ := none
  left _ := none
  kept _ := True

/-- At these points a step of the kernel is one of the thread's own, and makes no thread. -/
def stays : Pc → Bool
  | .user | .utrapret | .sret _ | .schedSwtch _ | .sched _ | .exitSched _ | .paAlloc _ _ => false
  | _ => true

/-- Follow a schedule of such steps. -/
def stayRun (s : Sched.State n) : List (Fin n × Choice) → Option (Sched.State n)
  | [] => some s
  | a :: l => if stays (s.pcOf a.1) = true ∧ a.2 ≠ .timer then
      (Sched.go s a.1 a.2).bind (stayRun · l) else none

/-- Nobody has panicked, and nobody is in the handler for another interrupt. -/
structure Calm (m : Machine n) : Prop where
  side : ∀ h, m.side h = false
  panicked : ∀ h, m.panicked h = false

/-- What is owed to interrupted threads is the same in `m'`, and it is calm there. -/
structure SameEntries (m m' : Machine n) : Prop where
  calm : Calm m'
  entry : m'.entry = m.entry
  locals : m'.locals = m.locals

section Runs

variable {P} {m m' : Machine n} {h : Fin n} {s s' : Sched.State n} {t : Thread n}

theorem Calm.meanwhile {a : Act} (hm : Calm m) (ha : a ≠ .sret) (hs : Step P m h a m') :
    Meanwhile P t m m' := ⟨(h, a), ⟨hm.panicked h, hs⟩, fun he => ha he.1⟩

theorem prepares_of_stays {pc : Pc} (hp : stays pc = true) (c : Choice) : prepares pc c = none := by
  cases pc <;> first | rfl | cases hp

theorem not_atSwtch {pc : Pc} (hp : stays pc = true) : ¬AtSwtch pc := by
  rintro (⟨i, rfl⟩ | ⟨k, rfl | ⟨p, rfl, -⟩⟩) <;> cases hp

/-- A schedule of such steps changes nothing but `base`. -/
theorem Calm.stayRun (hm : Calm m) {l : List (Fin n × Choice)} (hl : Trap.stayRun m.base l = some s) :
    Relation.ReflTransGen (Meanwhile P t) m { m with base := s } := by
  induction l generalizing m with
  | nil =>
      cases hl
      exact .refl
  | cons a l ih =>
      rw [Trap.stayRun] at hl
      split at hl
      · rename_i ha
        obtain ⟨s₁, hg, hl⟩ := Option.bind_eq_some_iff.1 hl
        have hne : ∀ pc, m.base.pcOf a.1 = pc → stays pc = true := fun pc he => he ▸ ha.1
        have hstep : Step P m a.1 (.go a.2) _ := .go a.2 s₁ (hm.side _) ha.2
          (fun he => Bool.false_ne_true (hne _ he)) (fun he => Bool.false_ne_true (hne _ he))
          (fun k he => Bool.false_ne_true (hne _ he)) (not_atSwtch ha.1) hg
        rw [prepares_of_stays ha.1] at hstep
        exact .head (hm.meanwhile (by simp) hstep)
          (ih (m := { m with base := s₁ }) ⟨hm.side, hm.panicked⟩ hl)
      · cases hl

/-- Compiled code may set the registers of its hart. -/
theorem Calm.compute (hm : Calm m) {c : Core} (pc : Word) (htp : c.x .tp = (m.core h).x .tp) :
    Meanwhile P t m { m.setCore h c with pc := Function.update m.pc h pc } :=
  hm.meanwhile (by simp)
    (.compute c pc m.mem m.kHartid (fun _ => htp) (fun _ _ => rfl) fun _ _ => rfl)

/-- It calls `swtch` with the contexts of the two threads. -/
theorem Calm.swtch (hm : Calm m) (hsw : AtSwtch (m.base.pcOf h))
    (hg : Sched.go m.base h .go = some s) :
    ∃ m', Relation.ReflTransGen (Meanwhile P t) m m' ∧ m'.base = s ∧ SameEntries m m' := by
  let c : Core := ((m.core h).set .a0 (.ofNat 32 (P.ctx (m.base.thread h)))).set .a1
    (.ofNat 32 (P.ctx (s.thread h)))
  have hfits : ∀ t, P.ctx t < 2 ^ 32 := fun t => by
    have := P.fits t
    omega
  let m₁ : Machine n := { m.setCore h c with pc := Function.update m.pc h (m.pc h) }
  have hm₁ : Calm m₁ := ⟨hm.side, hm.panicked⟩
  have hcore : m₁.core h = c := Function.update_self ..
  have hswtch : Step P m₁ h .swtch _ := .swtch s (hm.side h) hsw hg
    (by rw [hcore]; exact Nat.mod_eq_of_lt (hfits _)) (by rw [hcore]; exact Nat.mod_eq_of_lt (hfits _))
  have hset : Meanwhile P t m m₁ := hm.compute (m.pc h) rfl
  exact ⟨_, .tail (.single hset) (hm₁.meanwhile (by simp) hswtch), rfl, ⟨hm.side, hm.panicked⟩,
    rfl, rfl⟩

/-- A process goes to user mode and comes back. -/
theorem Calm.user (hm : Calm m) {p : Slot} {c : Choice} (hp : m.base.pcOf h = .utrapret)
    (hg : Sched.go m.base h .go = some s) (hcp : m.base.cproc h = some p)
    (hu : s.pcOf h = .user) (hn : next s h c = some s') :
    ∃ m', Relation.ReflTransGen (Meanwhile P t) m m' ∧ m'.base = s' ∧ SameEntries m m' := by
  let m₁ : Machine n := { m.setCore h (m.core h) with
    base := s
    sscratch := Function.update m.sscratch h (some p)
    kHartid := Function.update m.kHartid p ((m.core h).x .tp) }
  have hret : Step P m h .utrapret m₁ := .utrapret s p (m.core h) (hm.side h) hp hg hcp
  have hid : m₁.kHartid p = (m.core h).x .tp := Function.update_self ..
  have htrap : Step P m₁ h (.usertrap c) _ := .usertrap c s' p (m.core h) (hm.side h) hu hn
    (Function.update_self ..) hid.symm
  have hm₁ : Calm m₁ := ⟨hm.side, hm.panicked⟩
  exact ⟨_, .tail (.single (hm.meanwhile (by simp) hret)) (hm₁.meanwhile (by simp) htrap), rfl,
    ⟨hm.side, hm.panicked⟩, rfl, rfl⟩

/-- `s_trap_handle` returns with the registers that it was called with. -/
theorem Calm.sret (hm : Calm m) {k : Pc} {l : Locals} {e : Entry} (hp : m.base.pcOf h = .sret k)
    (hg : Sched.go m.base h .go = some s) (hl : m.locals (m.base.thread h) = some l)
    (he : m.entry (m.base.thread h) = some e) :
    ∃ m' m'', Relation.ReflTransGen (Meanwhile P t) m m' ∧ m'.base = m.base ∧
      (machine P).step m' (h, .sret) m'' := by
  have hne : ∀ r ∈ calleeSaved, r ≠ .tp := by decide
  let c : Core := ⟨fun r => if r = .tp then (m.core h).x .tp else e.called r, (m.core h).csr⟩
  have hcall : Meanwhile P t m _ := hm.compute (m.pc h) (c := c) (h := h) rfl
  refine ⟨_, _, .single hcall, rfl, hm.panicked h, .sret l e s k (hm.side h) hp hg hl he
    fun _ r hr => ?_⟩
  change (Function.update m.core h c h).x r = _
  rw [Function.update_self]
  exact if_neg (hne r hr)

end Runs

/-- A hart that has not been interrupted is. -/
theorem Calm.timer {m : Machine 2} {h : Fin 2} {s : Sched.State 2} {t : Thread 2} (hm : Calm m)
    (he : ∀ t, m.entry t = none) (hu : m.base.pcOf h ≠ .user) (ht : Sched.timer m.base h = some s) :
    ∃ m₀ m₁ l e, Relation.ReflTransGen (Meanwhile twoPlaces t) m m₀ ∧ m₀.base = m.base ∧
      m₀.pc h = 0x80000000 ∧ (m₀.core h).x .s0 = 7 ∧
      (machine twoPlaces).step m₀ (h, .kerneltrap 0x80000005) m₁ ∧ m₁.base = s ∧ Calm m₁ ∧
      m₁.locals (m.base.thread h) = some l ∧ m₁.entry (m.base.thread h) = some e := by
  let c : Core := ⟨fun r => if r = .sp then 0x1000 else if r = .tp then (m.core h).x .tp else 7,
    fun _ => 2⟩
  let m₀ : Machine 2 := { m.setCore h c with pc := Function.update m.pc h 0x80000000 }
  have hcore : m₀.core h = c := Function.update_self ..
  have hfree : ∀ a, ((m₀.core h).x .sp).toNat - 128 ≤ a → a < ((m₀.core h).x .sp).toNat →
      ¬m₀.Reserved twoPlaces a ∧ ∀ t, ¬twoPlaces.Ctx t a := by
    intro a _ ha
    rw [hcore] at ha
    have hlt : a < 0x1000 := ha
    have hctx : ∀ t, ¬twoPlaces.Ctx t a := by
      rintro t ⟨hge, -⟩
      have : 0x2000 ≤ twoPlaces.ctx t := by
        cases t
        · exact Nat.le_add_right ..
        · exact (by decide : 0x2000 ≤ 0x3000).trans (Nat.le_add_right ..)
      omega
    refine ⟨?_, hctx⟩
    rintro (⟨t, e, hte, -⟩ | ⟨t, -, hta⟩)
    · exact absurd ((he t).symm.trans hte) (by simp)
    · exact hctx t hta
  obtain ⟨e, hent, hloc, -⟩ := m₀.entry_interrupted_self h 0x80000005
  have hsp : 128 ≤ (0x1000 : Word).toNat := by decide
  have hcause : sTrapHandle 0x80000005 (trapStatus 2) = some 2 := by decide
  have hstep : Step twoPlaces m₀ h (.kerneltrap 0x80000005) _ :=
    .timer 0x80000005 s (hm.side h) hu (by rw [hcore]; exact hsp) hfree (by rw [hcore]; exact hcause) ht
  refine ⟨m₀, _, _, e, .single (hm.compute 0x80000000 ?_), rfl, Function.update_self .., ?_,
    ⟨hm.panicked h, hstep⟩, rfl, ⟨hm.side, hm.panicked⟩, hloc, hent⟩
  · rfl
  · rw [hcore]
    rfl

/-- A process in a system call on hart 1 is interrupted by the timer and yields; the scheduler of
hart 0 picks it, and there it returns from the interrupt. -/
theorem kerneltrap_transparent_moved : ∃ m₀ m₁ m₂ m₃ : Machine 2,
    (machine twoPlaces).Reachable m₀ ∧ m₀.base.thread 1 = .proc 0 ∧
      (machine twoPlaces).step m₀ (1, .kerneltrap 0x80000005) m₁ ∧ m₁.panicked 1 = false ∧
      Relation.ReflTransGen (Meanwhile twoPlaces (.proc 0)) m₁ m₂ ∧
      m₂.base.thread 0 = .proc 0 ∧ (machine twoPlaces).step m₂ (0, .sret) m₃ ∧
      m₃.base.thread 0 = .proc 0 ∧ m₃.pc 0 = 0x80000000 ∧ (m₃.core 0).x .s0 = 7 ∧
      (m₃.core 0).x .tp = 0 := by
  -- what `base` does meanwhile
  have hrun : ((stayRun (boot 2) (goes 1 5)).bind fun s₁ => (Sched.go s₁ 1 .go).bind fun s₂ =>
      (stayRun s₂ (goes 1 2)).bind fun s₃ => (Sched.go s₃ 1 .go).bind fun s₄ =>
      (next s₄ 1 (.other 0)).bind fun s₅ => (Sched.timer s₅ 1).bind fun s₆ =>
      (stayRun s₆ (goes 1 3)).bind fun s₇ => (Sched.go s₇ 1 .go).bind fun s₈ =>
      (stayRun s₈ (goes 1 3 ++ goes 0 5)).bind fun s₉ => (Sched.go s₉ 0 .go).bind fun s₁₀ =>
      (stayRun s₁₀ (goes 0 2)).bind fun s₁₁ => (Sched.go s₁₁ 0 .go).map fun _ =>
        ([s₁.pcOf 1, s₃.pcOf 1, s₄.pcOf 1, s₅.pcOf 1, s₇.pcOf 1, s₉.pcOf 0, s₁₁.pcOf 0],
          s₃.cproc 1, [s₅.thread 1, s₁₁.thread 0])) =
      some ([.schedSwtch 0, .utrapret, .user, .mm (.sysret .other 0 0),
        .sched (.rel (.proc 0) (.sret (.mm (.sysret .other 0 0)))), .schedSwtch 0,
        .sret (.mm (.sysret .other 0 0))], some 0, [.proc 0, .proc 0]) := by
    decide +kernel
  obtain ⟨s₁, h₁, hrun⟩ := Option.bind_eq_some_iff.1 hrun
  obtain ⟨s₂, h₂, hrun⟩ := Option.bind_eq_some_iff.1 hrun
  obtain ⟨s₃, h₃, hrun⟩ := Option.bind_eq_some_iff.1 hrun
  obtain ⟨s₄, h₄, hrun⟩ := Option.bind_eq_some_iff.1 hrun
  obtain ⟨s₅, h₅, hrun⟩ := Option.bind_eq_some_iff.1 hrun
  obtain ⟨s₆, h₆, hrun⟩ := Option.bind_eq_some_iff.1 hrun
  obtain ⟨s₇, h₇, hrun⟩ := Option.bind_eq_some_iff.1 hrun
  obtain ⟨s₈, h₈, hrun⟩ := Option.bind_eq_some_iff.1 hrun
  obtain ⟨s₉, h₉, hrun⟩ := Option.bind_eq_some_iff.1 hrun
  obtain ⟨s₁₀, h₁₀, hrun⟩ := Option.bind_eq_some_iff.1 hrun
  obtain ⟨s₁₁, h₁₁, hrun⟩ := Option.bind_eq_some_iff.1 hrun
  obtain ⟨s₁₂, h₁₂, he⟩ := Option.map_eq_some_iff.1 hrun
  simp only [Prod.mk.injEq, List.cons.injEq, and_true] at he
  obtain ⟨⟨hp₁, hp₃, hp₄, hp₅, hp₇, hp₉, hp₁₁⟩, hc₃, ht₅, ht₁₁⟩ := he
  -- from boot to the system call
  have hstart : (machine twoPlaces).Reachable twoHarts :=
    .start ⟨rfl, fun h => rfl, fun _ => rfl, fun _ => rfl, fun _ => rfl, fun _ => trivial⟩
  have hm : Calm twoHarts := ⟨fun _ => rfl, fun _ => rfl⟩
  have r₁ := hm.stayRun (P := twoPlaces) (t := .proc 0) h₁
  have hm₁ : Calm { twoHarts with base := s₁ } := ⟨hm.side, hm.panicked⟩
  obtain ⟨m₂, r₂, hb₂, hm₂, hent₂, -⟩ := hm₁.swtch (P := twoPlaces) (t := .proc 0) (h := 1)
    (.inl ⟨0, hp₁⟩) h₂
  rw [← hb₂] at h₃
  have r₃ := hm₂.stayRun (P := twoPlaces) (t := .proc 0) h₃
  have hm₃ : Calm { m₂ with base := s₃ } := ⟨hm₂.side, hm₂.panicked⟩
  obtain ⟨m₅, r₅, hb₅, hm₅, hent₅, -⟩ := hm₃.user (P := twoPlaces) (t := .proc 0) hp₃ h₄ hc₃ hp₄ h₅
  have hnone : ∀ t, m₅.entry t = none := by
    intro t
    rw [hent₅, hent₂]
    rfl
  rw [← hb₅] at hp₅ ht₅ h₆
  obtain ⟨m₀, m₆, l, e, r₆, hb₀, hpc₀, hs0, hin, hb₆, hm₆, hl₆, he₆⟩ :=
    hm₅.timer (t := .proc 0) hnone (by rw [hp₅]; decide) h₆
  rw [ht₅] at hl₆ he₆
  have hr : (machine twoPlaces).Reachable m₀ :=
    reachable_meanwhile hstart (r₁.trans (r₂.trans (r₃.trans (r₅.trans r₆))))
  -- from the interrupt to the `sret`
  rw [← hb₆] at h₇
  have r₇ := hm₆.stayRun (P := twoPlaces) (t := .proc 0) h₇
  have hm₇ : Calm { m₆ with base := s₇ } := ⟨hm₆.side, hm₆.panicked⟩
  obtain ⟨m₈, r₈, hb₈, hm₈, hent₈, hloc₈⟩ := hm₇.swtch (P := twoPlaces) (t := .proc 0) (h := 1)
    (.inr ⟨_, .inl hp₇⟩) h₈
  rw [← hb₈] at h₉
  have r₉ := hm₈.stayRun (P := twoPlaces) (t := .proc 0) h₉
  have hm₉ : Calm { m₈ with base := s₉ } := ⟨hm₈.side, hm₈.panicked⟩
  obtain ⟨m₁₀, r₁₀, hb₁₀, hm₁₀, hent₁₀, hloc₁₀⟩ := hm₉.swtch (P := twoPlaces) (t := .proc 0) (h := 0)
    (.inl ⟨0, hp₉⟩) h₁₀
  rw [← hb₁₀] at h₁₁
  have r₁₁ := hm₁₀.stayRun (P := twoPlaces) (t := .proc 0) h₁₁
  have hm₁₁ : Calm { m₁₀ with base := s₁₁ } := ⟨hm₁₀.side, hm₁₀.panicked⟩
  have hl₁₁ : m₁₀.locals (s₁₁.thread 0) = some l := by
    rw [ht₁₁, hloc₁₀]
    exact (congrFun hloc₈ _).trans hl₆
  have he₁₁ : m₁₀.entry (s₁₁.thread 0) = some e := by
    rw [ht₁₁, hent₁₀]
    exact (congrFun hent₈ _).trans he₆
  obtain ⟨m₁₂, m₁₃, r₁₂, hb₁₂, hout⟩ := hm₁₁.sret (P := twoPlaces) (t := .proc 0) hp₁₁ h₁₂ hl₁₁ he₁₁
  have hth₀ : m₀.base.thread 1 = .proc 0 := by rw [hb₀, ht₅]
  have hth : m₁₂.base.thread 0 = m₀.base.thread 1 := by
    rw [hb₁₂, hth₀]
    exact ht₁₁
  have hrun₂ : Relation.ReflTransGen (Meanwhile twoPlaces (m₀.base.thread 1)) m₆ m₁₂ := by
    rw [hth₀]
    exact r₇.trans (r₈.trans (r₉.trans (r₁₀.trans (r₁₁.trans r₁₂))))
  obtain ⟨hth₃, hpc, hx, htp, -⟩ :=
    kerneltrap_transparent twoPlaces hr hin (hm₆.panicked 1) hrun₂ hth hout
  exact ⟨m₀, m₆, m₁₂, m₁₃, hr, hth₀, hin, hm₆.panicked 1, hth₀ ▸ hrun₂, hth.trans hth₀, hout,
    hth₃.trans hth₀, hpc.trans hpc₀, (hx .s0 (by decide)).trans hs0, htp⟩

end Wl00.Trap
