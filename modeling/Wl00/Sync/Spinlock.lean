import Mathlib.Data.Finset.Card
import Mathlib.Tactic.Common
import Wl00.Lib.Transition

/-!
# Spinlocks: `lock`, `unlock` and `holding` step by step

The model of `kernel/spinlock.c`.  Every hart runs a program of its own that
calls `lock`, `unlock`, `holding`, `myproc` and the interrupt switches in any
order; the calls are cut into the steps in which they touch shared memory, and
the steps of all harts interleave freely.  The programs keep the three rules
of the source's callers: `unlock` only a lock that is held, never `lock` a
held lock again, never enable interrupts while holding one.

The main result is `spinlock_safe`: a lock has at most one owner, `holding`
answers truthfully whatever the other harts do to the two fields it reads, no
panic fires, and an owner's interrupts are off.
-/

namespace Wl00.Spinlock

/-- `struct spinlock`, less its name. -/
structure Spin (Hart : Type) where
  lock : Nat
  cpu : Option Hart

/-- What `push_off` and `pop_off` work on: `depth` and `intena` of `struct cpu`
and the SIE bit of the hart's `sstatus`. -/
structure Cpu where
  depth : Int
  intena : Bool
  sie : Bool
  deriving DecidableEq

/-- The panics of `spinlock.c`. -/
inductive Panic where
  /-- `trying to lock locked spinlock` -/
  | lockLocked
  /-- `trying to release unlocked spinlock` -/
  | unlockUnlocked
  /-- `pop_off - interruptable` -/
  | popInterruptable
  /-- `push_off depth less than 1` -/
  | popDepth
  deriving DecidableEq, Repr

/-- `init_lock` -/
def initLock {Hart : Type} : Spin Hart := { lock := 0, cpu := none }

/-- `atomic_swap` on the `lock` word: the old value and the lock after it. -/
def atomicSwap {Hart : Type} (lk : Spin Hart) (new : Nat) : Nat × Spin Hart :=
  (lk.lock, { lk with lock := new })

/-- `push_off` -/
def pushOff (c : Cpu) : Cpu :=
  { depth := c.depth + 1
    intena := if c.depth = 0 then c.sie else c.intena
    sie := false }

/-- `pop_off` -/
def popOff (c : Cpu) : Except Panic Cpu :=
  if c.sie then .error .popInterruptable
  else if c.depth < 1 then .error .popDepth
  else .ok { c with
    depth := c.depth - 1
    sie := if c.depth - 1 = 0 ∧ c.intena then true else c.sie }

/-- Where a hart stands.  A constructor names the step that comes next. -/
inductive Pc (Lock : Type) where
  /-- In its own program, outside all calls. -/
  | prog
  /-- `lock`: `push_off` -/
  | lockPush (l : Lock)
  /-- `lock`: `holding` reads `lk->lock` -/
  | lockHolding (l : Lock)
  /-- `lock`: `holding` reads `lk->cpu` -/
  | lockHoldingCpu (l : Lock)
  /-- `lock`: one attempt of the swap loop -/
  | lockSwap (l : Lock)
  /-- `lock`: `lk->cpu = this_cpu()` -/
  | lockSetCpu (l : Lock)
  /-- `unlock`: `holding` reads `lk->lock` -/
  | unlockHolding (l : Lock)
  /-- `unlock`: `holding` reads `lk->cpu` -/
  | unlockHoldingCpu (l : Lock)
  /-- `unlock`: `lk->cpu = NULL` -/
  | unlockClearCpu (l : Lock)
  /-- `unlock`: swap 0 in -/
  | unlockSwap (l : Lock)
  /-- `unlock`: `pop_off` -/
  | unlockPop (l : Lock)
  /-- A call of `holding` by the program: read `lk->lock`. -/
  | holding (l : Lock)
  /-- A call of `holding` by the program: read `lk->cpu`. -/
  | holdingCpu (l : Lock)
  /-- A call of `holding` by the program has this result. -/
  | holdingRet (l : Lock) (r : Bool)
  /-- `myproc`: `pop_off` -/
  | myprocPop
  /-- In the endless loop of `panic`. -/
  | panic (m : Panic)
  deriving DecidableEq

/-- What a program may do next; `go` is the next step of the call it is in. -/
inductive Act (Lock : Type) where
  | lock (l : Lock)
  | unlock (l : Lock)
  | holding (l : Lock)
  | myproc
  | interruptOn
  | interruptOff
  | go

/-- All locks and all harts.  `held h` is a history variable: the locks whose
successful swap by `h` has not been followed by its releasing swap. -/
structure State (Hart Lock : Type) where
  locks : Lock → Spin Hart
  cpus : Hart → Cpu
  pc : Hart → Pc Lock
  held : Hart → Finset Lock

section

variable {Hart Lock : Type} [DecidableEq Hart] [DecidableEq Lock]

namespace State

def setPc (s : State Hart Lock) (h : Hart) (p : Pc Lock) : State Hart Lock :=
  { s with pc := Function.update s.pc h p }

def setCpu (s : State Hart Lock) (h : Hart) (c : Cpu) : State Hart Lock :=
  { s with cpus := Function.update s.cpus h c }

def setLock (s : State Hart Lock) (l : Lock) (k : Spin Hart) : State Hart Lock :=
  { s with locks := Function.update s.locks l k }

def setHeld (s : State Hart Lock) (h : Hart) (H : Finset Lock) : State Hart Lock :=
  { s with held := Function.update s.held h H }

end State

/-- The next step of the call hart `h` is in. -/
def go (s : State Hart Lock) (h : Hart) : Option (State Hart Lock) :=
  match s.pc h with
  | .prog => none
  | .lockPush l => some ((s.setCpu h (pushOff (s.cpus h))).setPc h (.lockHolding l))
  | .lockHolding l =>
      if (s.locks l).lock ≠ 0 then some (s.setPc h (.lockHoldingCpu l))
      else some (s.setPc h (.lockSwap l))
  | .lockHoldingCpu l =>
      if (s.locks l).cpu = some h then some (s.setPc h (.panic .lockLocked))
      else some (s.setPc h (.lockSwap l))
  | .lockSwap l =>
      let (old, lk) := atomicSwap (s.locks l) 1
      if old ≠ 0 then some (s.setLock l lk)
      else some (((s.setLock l lk).setHeld h (insert l (s.held h))).setPc h (.lockSetCpu l))
  | .lockSetCpu l => some ((s.setLock l { s.locks l with cpu := some h }).setPc h .prog)
  | .unlockHolding l =>
      if (s.locks l).lock ≠ 0 then some (s.setPc h (.unlockHoldingCpu l))
      else some (s.setPc h (.panic .unlockUnlocked))
  | .unlockHoldingCpu l =>
      if (s.locks l).cpu = some h then some (s.setPc h (.unlockClearCpu l))
      else some (s.setPc h (.panic .unlockUnlocked))
  | .unlockClearCpu l => some ((s.setLock l { s.locks l with cpu := none }).setPc h (.unlockSwap l))
  | .unlockSwap l =>
      let (_, lk) := atomicSwap (s.locks l) 0
      some (((s.setLock l lk).setHeld h ((s.held h).erase l)).setPc h (.unlockPop l))
  | .unlockPop _ =>
      match popOff (s.cpus h) with
      | .ok c => some ((s.setCpu h c).setPc h .prog)
      | .error m => some (s.setPc h (.panic m))
  | .holding l =>
      if (s.locks l).lock ≠ 0 then some (s.setPc h (.holdingCpu l))
      else some (s.setPc h (.holdingRet l false))
  | .holdingCpu l => some (s.setPc h (.holdingRet l ((s.locks l).cpu = some h)))
  | .holdingRet _ _ => some (s.setPc h .prog)
  | .myprocPop =>
      match popOff (s.cpus h) with
      | .ok c => some ((s.setCpu h c).setPc h .prog)
      | .error m => some (s.setPc h (.panic m))
  | .panic _ => none

/-- One step of hart `h`: a call or an interrupt switch of its program, under
the rules the programs keep, or the next step of the call it is in. -/
def next (s : State Hart Lock) (h : Hart) (a : Act Lock) : Option (State Hart Lock) :=
  match a with
  | .go => go s h
  | .lock l =>
      if s.pc h = .prog ∧ l ∉ s.held h then some (s.setPc h (.lockPush l)) else none
  | .unlock l =>
      if s.pc h = .prog ∧ l ∈ s.held h then some (s.setPc h (.unlockHolding l)) else none
  | .holding l => if s.pc h = .prog then some (s.setPc h (.holding l)) else none
  | .myproc =>
      if s.pc h = .prog then some ((s.setCpu h (pushOff (s.cpus h))).setPc h .myprocPop) else none
  | .interruptOn =>
      if s.pc h = .prog ∧ s.held h = ∅ then some (s.setCpu h { s.cpus h with sie := true })
      else none
  | .interruptOff =>
      if s.pc h = .prog then some (s.setCpu h { s.cpus h with sie := false }) else none

variable (Hart Lock) in
/-- The harts' programs over fresh locks, with any interrupt bits. -/
def system : Lts (State Hart Lock) (Hart × Act Lock) :=
  .ofNext
    (fun s => (∀ l, s.locks l = initLock) ∧
      ∀ h, s.pc h = .prog ∧ s.held h = ∅ ∧ (s.cpus h).depth = 0)
    (fun s a => next s a.1 a.2)

/-! ## The invariant -/

namespace Pc

variable {Lock : Type}

/-- The lock a hart is about to own, or has just given up. -/
def outside : Pc Lock → Option Lock
  | .lockPush l | .lockHolding l | .lockHoldingCpu l | .lockSwap l | .unlockPop l => some l
  | _ => none

/-- The lock a hart owns while it finishes `lock` or works through `unlock`. -/
def inside : Pc Lock → Option Lock
  | .lockSetCpu l | .unlockHolding l | .unlockHoldingCpu l | .unlockClearCpu l
  | .unlockSwap l => some l
  | _ => none

/-- The lock in one of the two gaps in which the owner is not in `lk->cpu`. -/
def gap : Pc Lock → Option Lock
  | .lockSetCpu l | .unlockSwap l => some l
  | _ => none

/-- The `push_off`s that no owned lock accounts for. -/
def pushed : Pc Lock → Int
  | .lockHolding _ | .lockHoldingCpu _ | .lockSwap _ | .unlockPop _ | .myprocPop => 1
  | _ => 0

/-- What a hart at this point knows of the locks it holds. -/
def Knows (H : Finset Lock) : Pc Lock → Prop
  | .holdingRet l r => r = true ↔ l ∈ H
  | .panic _ => False
  | p => (∀ l, p.outside = some l → l ∉ H) ∧ ∀ l, p.inside = some l → l ∈ H

end Pc

/-- What every interleaving keeps.  The owner is recorded in `lk->cpu` except
in the two gaps next to the swaps, and nobody else is ever recorded there. -/
structure Inv (s : State Hart Lock) : Prop where
  lock_ne : ∀ h l, l ∈ s.held h → (s.locks l).lock ≠ 0
  unique : ∀ h h' l, l ∈ s.held h → l ∈ s.held h' → h = h'
  cpu_iff : ∀ h l, (s.locks l).cpu = some h ↔ l ∈ s.held h ∧ (s.pc h).gap ≠ some l
  knows : ∀ h, (s.pc h).Knows (s.held h)
  depth : ∀ h, (s.cpus h).depth = (s.held h).card + (s.pc h).pushed
  sie : ∀ h, 0 < (s.cpus h).depth → (s.cpus h).sie = false

theorem inv_init {s : State Hart Lock} (h : (system Hart Lock).init s) : Inv s := by
  obtain ⟨hl, hh⟩ := h
  constructor <;> intros <;> simp_all [initLock, Pc.Knows, Pc.outside, Pc.inside, Pc.pushed]

omit [DecidableEq Hart] [DecidableEq Lock] in
/-- A hart between the two swaps holds the lock. -/
theorem Inv.mem_held {s : State Hart Lock} (hi : Inv s) {h : Hart} {l : Lock}
    (hp : (s.pc h).inside = some l) : l ∈ s.held h := by
  have hk := hi.knows h
  generalize s.pc h = p at hp hk
  cases p with
  | holdingRet l r => cases hp
  | panic m => cases hp
  | _ => exact hk.2 l hp

omit [DecidableEq Lock] in
/-- `push_off` and `pop_off` change one hart's bookkeeping, in step with its
place in the program. -/
theorem Inv.setCpu {s : State Hart Lock} (hi : Inv s) {h : Hart} {p : Pc Lock} {c : Cpu}
    (hk : p.Knows (s.held h)) (hg : (s.pc h).gap = none) (hg' : p.gap = none)
    (hd : c.depth = (s.cpus h).depth + p.pushed - (s.pc h).pushed)
    (hs : 0 < c.depth → c.sie = false) : Inv ((s.setCpu h c).setPc h p) := by
  obtain ⟨h1, h2, h3, h4, h5, h6⟩ := hi
  constructor <;> simp only [State.setPc, State.setCpu, Function.update_apply]
  · exact h1
  · exact h2
  · intro h' l
    by_cases hh : h' = h
    · subst hh; simpa [hg, hg'] using h3 h' l
    · simpa [hh] using h3 h' l
  · intro h'
    by_cases hh : h' = h
    · subst hh; simpa using hk
    · simpa [hh] using h4 h'
  · intro h'
    by_cases hh : h' = h
    · subst hh
      have := h5 h'
      simp only [if_pos]
      omega
    · simpa [hh] using h5 h'
  · intro h'
    by_cases hh : h' = h
    · subst hh; simpa using hs
    · simpa [hh] using h6 h'

omit [DecidableEq Lock] in
/-- Moving on without touching a lock, a cpu or the history. -/
theorem Inv.setPc {s : State Hart Lock} (hi : Inv s) {h : Hart} {p : Pc Lock}
    (hk : p.Knows (s.held h)) (hg : (s.pc h).gap = none) (hg' : p.gap = none)
    (hp : p.pushed = (s.pc h).pushed) : Inv (s.setPc h p) := by
  have hset := hi.setCpu (c := s.cpus h) hk hg hg' (by omega) (hi.sie h)
  rwa [State.setCpu, Function.update_eq_self] at hset

theorem popOff_ok {c : Cpu} (hd : 0 < c.depth) (hs : c.sie = false) :
    ∃ c', popOff c = .ok c' ∧ c'.depth = c.depth - 1 ∧ (0 < c'.depth → c'.sie = false) := by
  refine ⟨_, by rw [popOff, if_neg (by simp [hs]), if_neg (by omega)], rfl, ?_⟩
  intro h0
  have h0 : 0 < c.depth - 1 := h0
  rw [if_neg (by omega)]
  exact hs

omit [DecidableEq Lock] in
/-- The last step of a call: `pop_off` undoes its `push_off`. -/
theorem Inv.pop {s : State Hart Lock} (hi : Inv s) {h : Hart} (hp : (s.pc h).pushed = 1)
    (hg : (s.pc h).gap = none) :
    ∃ c, popOff (s.cpus h) = .ok c ∧ Inv ((s.setCpu h c).setPc h .prog) := by
  have hpos : 0 < (s.cpus h).depth := by
    rw [hi.depth, hp]
    omega
  obtain ⟨c, hc, hcd, hcs⟩ := popOff_ok hpos (hi.sie h hpos)
  refine ⟨c, hc, hi.setCpu ?_ hg rfl ?_ hcs⟩
  · simp [Pc.Knows, Pc.outside, Pc.inside]
  · rw [hcd, hp, show (Pc.prog : Pc Lock).pushed = 0 from rfl]
    omega

omit [DecidableEq Lock] in
theorem Inv.setSie {s : State Hart Lock} (hi : Inv s) {h : Hart} {b : Bool}
    (hb : 0 < (s.cpus h).depth → b = false) : Inv (s.setCpu h { s.cpus h with sie := b }) := by
  obtain ⟨h1, h2, h3, h4, h5, h6⟩ := hi
  refine ⟨h1, h2, h3, h4, ?_, ?_⟩ <;> simp only [State.setCpu, Function.update_apply]
  · intro h'
    by_cases hh : h' = h
    · subst hh; simpa using h5 h'
    · simpa [hh] using h5 h'
  · intro h'
    by_cases hh : h' = h
    · subst hh; simpa using hb
    · simpa [hh] using h6 h'

omit [DecidableEq Hart] in
/-- A failed attempt of the swap loop writes back the 1 that is there. -/
theorem Inv.spin {s : State Hart Lock} (hi : Inv s) {l : Lock} (h0 : (s.locks l).lock ≠ 0) :
    Inv (s.setLock l { s.locks l with lock := 1 }) := by
  obtain ⟨h1, h2, h3, h4, h5, h6⟩ := hi
  refine ⟨?_, h2, ?_, h4, h5, h6⟩ <;> simp only [State.setLock, Function.update_apply]
  · intro h l' hm
    by_cases hl : l' = l
    · simp [hl]
    · simpa [hl] using h1 h l' hm
  · intro h l'
    by_cases hl : l' = l
    · subst hl; simpa using h3 h l'
    · simpa [hl] using h3 h l'

/-- The successful swap: the word was 0, so nobody held the lock. -/
theorem Inv.swap {s : State Hart Lock} (hi : Inv s) {h : Hart} {l : Lock}
    (hp : s.pc h = .lockSwap l) (h0 : (s.locks l).lock = 0) :
    Inv (((s.setLock l (atomicSwap (s.locks l) 1).2).setHeld h (insert l (s.held h))).setPc h
      (.lockSetCpu l)) := by
  obtain ⟨h1, h2, h3, h4, h5, h6⟩ := hi
  have hfree : ∀ h', l ∉ s.held h' := fun h' hm => h1 h' l hm h0
  constructor <;>
    simp only [State.setPc, State.setLock, State.setHeld, Function.update_apply, atomicSwap]
  · intro h' l' hm
    by_cases hl : l' = l
    · simp [hl]
    · grind
  · grind
  · grind [Pc.gap]
  · grind [Pc.Knows, Pc.outside, Pc.inside]
  · intro h'
    by_cases hh : h' = h
    · subst hh
      have := h5 h'
      rw [hp] at this
      simp only [if_pos, Finset.card_insert_of_notMem (hfree h'), Pc.pushed] at this ⊢
      omega
    · simpa [hh] using h5 h'
  · exact h6

theorem Inv.setOwner {s : State Hart Lock} (hi : Inv s) {h : Hart} {l : Lock}
    (hp : s.pc h = .lockSetCpu l) :
    Inv ((s.setLock l { s.locks l with cpu := some h }).setPc h .prog) := by
  have hm : l ∈ s.held h := hi.mem_held (by rw [hp]; rfl)
  obtain ⟨h1, h2, h3, h4, h5, h6⟩ := hi
  constructor <;> simp only [State.setPc, State.setLock, Function.update_apply]
  · grind
  · exact h2
  · grind [Pc.gap]
  · grind [Pc.Knows, Pc.outside, Pc.inside]
  · grind [Pc.pushed]
  · exact h6

theorem Inv.clearOwner {s : State Hart Lock} (hi : Inv s) {h : Hart} {l : Lock}
    (hp : s.pc h = .unlockClearCpu l) :
    Inv ((s.setLock l { s.locks l with cpu := none }).setPc h (.unlockSwap l)) := by
  have hm : l ∈ s.held h := hi.mem_held (by rw [hp]; rfl)
  obtain ⟨h1, h2, h3, h4, h5, h6⟩ := hi
  constructor <;> simp only [State.setPc, State.setLock, Function.update_apply]
  · grind
  · exact h2
  · grind [Pc.gap]
  · grind [Pc.Knows, Pc.outside, Pc.inside]
  · grind [Pc.pushed]
  · exact h6

/-- The releasing swap. -/
theorem Inv.release {s : State Hart Lock} (hi : Inv s) {h : Hart} {l : Lock}
    (hp : s.pc h = .unlockSwap l) :
    Inv (((s.setLock l (atomicSwap (s.locks l) 0).2).setHeld h ((s.held h).erase l)).setPc h
      (.unlockPop l)) := by
  have hm : l ∈ s.held h := hi.mem_held (by rw [hp]; rfl)
  obtain ⟨h1, h2, h3, h4, h5, h6⟩ := hi
  constructor <;>
    simp only [State.setPc, State.setLock, State.setHeld, Function.update_apply, atomicSwap]
  · grind
  · grind
  · grind [Pc.gap]
  · grind [Pc.Knows, Pc.outside, Pc.inside]
  · intro h'
    by_cases hh : h' = h
    · subst hh
      have := h5 h'
      have hpos : 0 < (s.held h').card := Finset.card_pos.2 ⟨l, hm⟩
      rw [hp] at this
      simp only [if_pos, Finset.card_erase_of_mem hm, Pc.pushed] at this ⊢
      omega
    · simpa [hh] using h5 h'
  · exact h6

/-- One step inside a call keeps the invariant. -/
theorem go_inv {s s' : State Hart Lock} {h : Hart} (hi : Inv s) (hg : go s h = some s') :
    Inv s' := by
  have hk := hi.knows h
  have hd := hi.depth h
  cases hp : s.pc h with
  | prog => simp [go, hp] at hg
  | panic m => simp [go, hp] at hg
  | lockPush l =>
      simp only [go, hp, Option.some.injEq] at hg
      rw [← hg]
      rw [hp] at hk
      exact hi.setCpu hk (by simp [hp, Pc.gap]) rfl (by simp [hp, Pc.pushed, pushOff])
        (fun _ => rfl)
  | lockHolding l =>
      rw [hp] at hk
      have hstay : ∀ p : Pc Lock, p = .lockHoldingCpu l ∨ p = .lockSwap l → Inv (s.setPc h p) := by
        rintro p (rfl | rfl) <;>
          exact hi.setPc hk (by simp [hp, Pc.gap]) rfl (by simp [hp, Pc.pushed])
      simp only [go, hp] at hg
      split at hg <;> cases hg
      · exact hstay _ (.inl rfl)
      · exact hstay _ (.inr rfl)
  | lockHoldingCpu l =>
      rw [hp] at hk
      -- the hart does not hold the lock, so it cannot be the one recorded in it
      have hne : (s.locks l).cpu ≠ some h := fun hc => hk.1 l rfl ((hi.cpu_iff h l).1 hc).1
      simp only [go, hp, if_neg hne, Option.some.injEq] at hg
      rw [← hg]
      exact hi.setPc hk (by simp [hp, Pc.gap]) rfl (by simp [hp, Pc.pushed])
  | lockSwap l =>
      by_cases h0 : (s.locks l).lock = 0
      · simp only [go, hp, atomicSwap, h0, ne_eq, not_true_eq_false, if_false,
          Option.some.injEq] at hg
        rw [← hg]
        exact hi.swap hp h0
      · simp only [go, hp, atomicSwap, ne_eq, h0, not_false_eq_true, if_true,
          Option.some.injEq] at hg
        rw [← hg]
        exact hi.spin h0
  | lockSetCpu l =>
      simp only [go, hp, Option.some.injEq] at hg
      rw [← hg]
      exact hi.setOwner hp
  | unlockHolding l =>
      rw [hp] at hk
      have hne := hi.lock_ne h l (hk.2 l rfl)
      simp only [go, hp, if_pos hne, Option.some.injEq] at hg
      rw [← hg]
      exact hi.setPc hk (by simp [hp, Pc.gap]) rfl (by simp [hp, Pc.pushed])
  | unlockHoldingCpu l =>
      rw [hp] at hk
      have hc : (s.locks l).cpu = some h :=
        (hi.cpu_iff h l).2 ⟨hk.2 l rfl, by simp [hp, Pc.gap]⟩
      simp only [go, hp, if_pos hc, Option.some.injEq] at hg
      rw [← hg]
      exact hi.setPc hk (by simp [hp, Pc.gap]) rfl (by simp [hp, Pc.pushed])
  | unlockClearCpu l =>
      simp only [go, hp, Option.some.injEq] at hg
      rw [← hg]
      exact hi.clearOwner hp
  | unlockSwap l =>
      simp only [go, hp, Option.some.injEq] at hg
      rw [← hg]
      exact hi.release hp
  | unlockPop l =>
      obtain ⟨c, hc, hinv⟩ := hi.pop (h := h) (by rw [hp]; rfl) (by rw [hp]; rfl)
      simp only [go, hp, hc, Option.some.injEq] at hg
      rwa [← hg]
  | holding l =>
      simp only [go, hp] at hg
      split at hg <;> cases hg
      · exact hi.setPc (by simp [Pc.Knows, Pc.outside, Pc.inside]) (by simp [hp, Pc.gap]) rfl
          (by simp [hp, Pc.pushed])
      · next h0 =>
        have hm : l ∉ s.held h := fun hm => h0 (hi.lock_ne h l hm)
        exact hi.setPc (by simpa [Pc.Knows] using hm) (by simp [hp, Pc.gap]) rfl
          (by simp [hp, Pc.pushed])
  | holdingCpu l =>
      have hc := hi.cpu_iff h l
      rw [hp] at hc
      simp only [go, hp, Option.some.injEq] at hg
      rw [← hg]
      exact hi.setPc (by simp [Pc.Knows, hc, Pc.gap]) (by simp [hp, Pc.gap]) rfl
        (by simp [hp, Pc.pushed])
  | holdingRet l r =>
      simp only [go, hp, Option.some.injEq] at hg
      rw [← hg]
      exact hi.setPc (by simp [Pc.Knows, Pc.outside, Pc.inside]) (by simp [hp, Pc.gap]) rfl
        (by simp [hp, Pc.pushed])
  | myprocPop =>
      obtain ⟨c, hc, hinv⟩ := hi.pop (h := h) (by rw [hp]; rfl) (by rw [hp]; rfl)
      simp only [go, hp, hc, Option.some.injEq] at hg
      rwa [← hg]

/-- Every step of every hart keeps the invariant. -/
theorem next_inv {s s' : State Hart Lock} {h : Hart} {a : Act Lock} (hi : Inv s)
    (hn : next s h a = some s') : Inv s' := by
  have hd := hi.depth h
  cases a with
  | go => exact go_inv hi hn
  | lock l =>
      simp only [next] at hn
      split at hn <;> cases hn
      next hp =>
      exact hi.setPc (by simpa [Pc.Knows, Pc.outside, Pc.inside] using hp.2)
        (by simp [hp.1, Pc.gap]) rfl (by simp [hp.1, Pc.pushed])
  | unlock l =>
      simp only [next] at hn
      split at hn <;> cases hn
      next hp =>
      exact hi.setPc (by simpa [Pc.Knows, Pc.outside, Pc.inside] using hp.2)
        (by simp [hp.1, Pc.gap]) rfl (by simp [hp.1, Pc.pushed])
  | holding l =>
      simp only [next] at hn
      split at hn <;> cases hn
      next hp =>
      exact hi.setPc (by simp [Pc.Knows, Pc.outside, Pc.inside])
        (by simp [hp, Pc.gap]) rfl (by simp [hp, Pc.pushed])
  | myproc =>
      simp only [next] at hn
      split at hn <;> cases hn
      next hp =>
      exact hi.setCpu (by simp [Pc.Knows, Pc.outside, Pc.inside]) (by simp [hp, Pc.gap]) rfl
        (by simp [hp, Pc.pushed, pushOff]) (fun _ => rfl)
  | interruptOn =>
      simp only [next] at hn
      split at hn <;> cases hn
      next hp =>
      -- the depth is 0 here: no lock is held and no call is under way
      rw [hp.1, hp.2] at hd
      exact hi.setSie (fun hpos => by simp [hd, Pc.pushed] at hpos)
  | interruptOff =>
      simp only [next] at hn
      split at hn <;> cases hn
      exact hi.setSie (fun _ => rfl)

theorem inv_reachable {s : State Hart Lock} (h : (system Hart Lock).Reachable s) : Inv s :=
  h.invariant (fun _ => inv_init) fun _ _ _ _ => next_inv

/-! ## The main result -/

/-- **Spinlocks exclude, and `holding` tells the truth.**  In every reachable
state of any number of harts running any programs: a lock has at most one
owner; a finished call of `holding` returned true exactly when its hart owns
the lock; no hart has panicked; and the interrupts of an owner are off. -/
theorem spinlock_safe (s : State Hart Lock) (h : (system Hart Lock).Reachable s) :
    (∀ l h₁ h₂, l ∈ s.held h₁ → l ∈ s.held h₂ → h₁ = h₂) ∧
    (∀ h l r, s.pc h = .holdingRet l r → (r = true ↔ l ∈ s.held h)) ∧
    (∀ h m, s.pc h ≠ .panic m) ∧
    (∀ h l, l ∈ s.held h → (s.cpus h).sie = false) := by
  have hi := inv_reachable h
  refine ⟨fun l h₁ h₂ => hi.unique h₁ h₂ l, ?_, ?_, ?_⟩
  · intro h l r hp
    have hk := hi.knows h
    rwa [hp] at hk
  · intro h m hp
    have hk := hi.knows h
    rwa [hp] at hk
  · intro h l hm
    refine hi.sie h ?_
    have hpos : 0 < (s.held h).card := Finset.card_pos.2 ⟨l, hm⟩
    have hp : 0 ≤ (s.pc h).pushed := by cases s.pc h <;> simp [Pc.pushed]
    have hd := hi.depth h
    omega

/-- Two harts and one lock: hart `true` takes it and asks `holding`. -/
theorem spinlock_safe_taken : ∃ s : State Bool Unit, (system Bool Unit).Reachable s ∧
    s.pc true = .holdingRet () true ∧ () ∈ s.held true ∧ () ∉ s.held false := by
  let s₀ : State Bool Unit :=
    { locks := fun _ => initLock, cpus := fun _ => ⟨0, true, true⟩
      pc := fun _ => .prog, held := fun _ => ∅ }
  have h₀ : (system Bool Unit).Reachable s₀ :=
    .start ⟨fun _ => rfl, fun _ => ⟨rfl, rfl, rfl⟩⟩
  obtain ⟨s, hs, hpc⟩ : ∃ s, Lts.exec (fun s a => next s a.1 a.2)
      [(true, .lock ()), (true, .go), (true, .go), (true, .go), (true, .go),
       (true, .holding ()), (true, .go), (true, .go)] s₀ = some s ∧
      s.pc true = .holdingRet () true := ⟨_, rfl, rfl⟩
  have hsafe := spinlock_safe s (h₀.exec hs)
  have hm := (hsafe.2.1 true () true hpc).1 rfl
  exact ⟨s, h₀.exec hs, hpc, hm, fun hf => by simpa using hsafe.1 () true false hm hf⟩

end

end Wl00.Spinlock
