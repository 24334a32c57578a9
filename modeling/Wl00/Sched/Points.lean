import Wl00.Sched.Steps

/-!
# Reading a program point

A program point determines which locks its hart holds, which slot a `fork`
under way has claimed, and whether its thread is on the way to `swtch`.  This
module defines these readings and the points a thread can be at, and shows that
a silent move keeps them (`Silent.sameFrame`).
-/

namespace Wl00.Sched

variable {n : Nat}

/-! ## Reading a program point -/

/-- The thread that calls `releaseproc`. -/
def Releaser.thread : Releaser → Option Slot
  | .wait p | .kexit p | .fail p => some p
  | .sched => none

namespace Pc

/-- The locks the hart at this point holds. -/
@[simp] def locks : Pc → Finset Lock
  | .acq l k => (locks k).erase l
  | .rel l k => insert l (locks k)
  | .mm k | .trapYield _ k | .sret k | .wakeup _ _ k | .sched k | .schedRet _ k
  | .release _ _ k => locks k
  | .clockTick k => insert .ticks (locks k)
  | .wakeCheck _ i k => insert (.proc i) (locks k)
  | .yieldSet p k => insert (.proc p) (locks k)
  | .sleepSet p _ _ _ | .sleepWake p _ _ | .forkret p | .exitSched p | .dead p => {.proc p}
  | .paCheck _ i | .schedCheck i | .schedSwtch i | .schedBack i | .schedReap i => {.proc i}
  | .paPid _ _ => {.pid}
  | .forkPublish _ i _ | .waitCheck _ _ i | .waitCopyout _ _ i _ _
  | .exitHand _ _ _ i _ => {.proc i, .wait}
  | .waitScan _ _ _ _ | .exitScan _ _ _ | .exitScanState _ _ _ | .exitChildren _ _ _ _ _
  | .exitParent _ _ | .exitParentArg _ _ => {.wait}
  | .exitZombie p _ => {.proc p, .wait}
  | .sleepStart _ _ | .sleepLoop _ _ _ => {.ticks}
  | .user | .utrapret | .sysret _ _ _ | .paScan _ _ | .paSetPid _ _ _ | .paAlloc _ _
  | .forkCopy _ _ | .forkPid _ _ | .schedOn | .schedOff | .schedScan _ | .panic => ∅

/-- The slot that a `fork` under way has claimed, and whether `procalloc` has
finished with it. -/
@[simp] def claims : Pc → Option (Slot × Bool)
  | .acq _ k | .rel _ k | .mm k | .trapYield _ k | .sret k | .wakeup _ _ k | .sched k
  | .schedRet _ k | .clockTick k | .wakeCheck _ _ k | .yieldSet _ k | .sleepSet _ _ _ k
  | .sleepWake _ _ k => claims k
  | .paPid _ i | .paSetPid _ i _ | .paAlloc _ i | .release i (.fail _) _ => some (i, false)
  | .forkCopy _ i | .forkPid _ i | .forkPublish _ i _ => some (i, true)
  | _ => none

/-- Neither on the way from `p->state = ...` to `swtch`, nor a scheduler that has
handed its hart to a process. -/
@[simp] def plain : Pc → Bool
  | .sched _ | .exitSched _ | .schedSwtch _ | .schedBack _ => false
  | .rel _ k => plain k
  | _ => true

/-- On the stack of a process that has become a zombie. -/
@[simp] def doomed : Pc → Bool
  | .acq _ k | .rel _ k | .mm k | .trapYield _ k | .sret k | .wakeup _ _ k | .sched k
  | .schedRet _ k | .clockTick k | .wakeCheck _ _ k | .yieldSet _ k | .sleepSet _ _ _ k
  | .sleepWake _ _ k | .release _ _ k => doomed k
  | .exitSched _ | .dead _ => true
  | _ => false

/-- The zombie that `releaseproc` is about to reset. -/
@[simp] def frees : Pc → Option Slot
  | .acq _ k | .rel _ k | .mm k | .trapYield _ k | .sret k | .wakeup _ _ k | .sched k
  | .schedRet _ k | .clockTick k | .wakeCheck _ _ k | .yieldSet _ k | .sleepSet _ _ _ k
  | .sleepWake _ _ k | .release _ (.fail _) k => frees k
  | .release q _ _ | .waitCopyout _ _ q _ _ => some q
  | _ => none

/-- Not the point of `sleep` that follows the release of the caller's lock. -/
@[simp] def Steady (k : Pc) : Prop := ∀ p c lk k', k ≠ .sleepSet p c lk k'

/-- The two uses of `sleep`: in `wait`, on the process's own slot under
`wait_lock`, and in `sys_sleep`, on `&ticks` under `tickslock`. -/
def Sleeps (p : Slot) (c : Chan) (lk : Lock) (k : Pc) : Prop :=
  (c = .proc p ∧ lk = .wait ∧ ∃ addr, k = .waitScan p addr 0 false) ∨
    (c = .ticks ∧ lk = .ticks ∧ ∃ m st, k = .sleepLoop p m st)

/-- Where `releaseproc(q)` returns to, by its caller. -/
def Releases (q : Slot) (k : Pc) : Releaser → Prop
  | .wait p => ∃ v, k = .rel (.proc q) (.rel .wait (.sysret .wait p v))
  | .kexit p => ∃ st g, k = .rel (.proc q) (.exitChildren p st none (q + 1) g)
  | .sched => k = .rel (.proc q) (.schedScan (q + 1))
  | .fail p => k = .rel (.proc q) (.mm (.sysret .fork p (-1)))

/-- What a thread does first when it has taken `wait_lock`. -/
def Entry (k : Pc) : Prop :=
  (∃ p addr, k = .waitScan p addr 0 false) ∨ (∃ p st, k = .exitScan p st 0) ∨
    ∃ p i v, k = .acq (.proc i) (.forkPublish p i v)

/-- The point is one the thread `t` (the process in a slot, or a scheduler) can
be at: its `p` is `t`'s own slot, a lock it takes is one it goes on to hold, and
the frames of an interrupt sit on code that held no lock. -/
@[simp] def Wf (t : Option Slot) : Pc → Prop
  | .acq l k => Wf t k ∧ k.plain ∧ l ∈ k.locks ∧ (∀ q, k.frees = some q → l ≠ .proc q) ∧
      (l = .wait → Entry k) ∧ k.Steady
  | .rel l k => Wf t k ∧ l ∉ k.locks ∧ (k.plain ∨ ∃ p, k = .exitSched p) ∧
      (k.Steady ∨ ∃ p c k', k = .sleepSet p c l k')
  | .mm k => Wf t k ∧ k.plain ∧ k.locks = ∅
  | .clockTick k | .sret k => Wf t k ∧ k.plain ∧ k.locks = ∅
  | .trapYield o k => Wf t k ∧ k.plain ∧ k.locks = ∅ ∧ o = t
  | .wakeup _ _ k | .wakeCheck _ _ k => Wf t k ∧ k.plain ∧ (∀ j, .proc j ∉ k.locks) ∧
      (.wait ∈ k.locks → ∃ p st, k = .exitParent p st ∨ k = .acq (.proc p) (.exitZombie p st))
  | .sched k | .schedRet _ k =>
      Wf t k ∧ k.plain ∧ k.Steady ∧ k.frees = none ∧ ∃ p, t = some p ∧ k.locks = {.proc p}
  | .yieldSet p k => Wf t k ∧ k.plain ∧ t = some p ∧ k.locks = ∅
  | .sleepSet p c lk k => t = some p ∧ Sleeps p c lk k
  | .sleepWake p lk k => t = some p ∧ ∃ c, Sleeps p c lk k
  | .release q r k => r.thread = t ∧ Releases q k r
  | .user | .utrapret => t ≠ none
  | .sysret _ p _ | .forkret p | .paScan p _ | .paCheck p _ | .paPid p _ | .paSetPid p _ _
  | .paAlloc p _ | .forkCopy p _ | .forkPid p _ | .forkPublish p _ _ | .waitScan p _ _ _
  | .waitCheck p _ _ | .waitCopyout p _ _ _ _ | .exitScan p _ _ | .exitScanState p _ _
  | .exitChildren p _ _ _ _ | .exitHand p _ _ _ _ | .exitParent p _ | .exitParentArg p _
  | .exitZombie p _ | .exitSched p | .dead p | .sleepStart p _ | .sleepLoop p _ _ => t = some p
  | .schedOn | .schedOff | .schedScan _ | .schedCheck _ | .schedSwtch _ | .schedBack _
  | .schedReap _ => t = none
  | .panic => False

theorem Sleeps.frees {p : Slot} {c : Chan} {lk : Lock} {k : Pc} (hs : Sleeps p c lk k) :
    k.frees = none := by
  obtain ⟨-, -, a, rfl⟩ | ⟨-, -, m, st, rfl⟩ := hs <;> rfl

theorem Sleeps.locks {p : Slot} {c : Chan} {lk : Lock} {k : Pc} (hs : Sleeps p c lk k) :
    k.locks = {lk} := by
  obtain ⟨-, rfl, a, rfl⟩ | ⟨-, rfl, m, st, rfl⟩ := hs <;> rfl

/-- What the callers of `releaseproc` have in common. -/
theorem Releases.spec {q : Slot} {k : Pc} {r : Releaser} (hk : Releases q k r) :
    k.Wf r.thread ∧ k.plain ∧ .proc q ∈ k.locks ∧ .mem ∉ k.locks ∧ k.claims = none ∧
      k.frees = none ∧ k.doomed = false := by
  cases r with
  | wait p => obtain ⟨v, rfl⟩ := hk; simp [Releaser.thread]
  | kexit p =>
      obtain ⟨st, g, rfl⟩ := hk
      simp [Releaser.thread]
  | sched => obtain rfl := hk; simp [Releaser.thread]
  | fail p => obtain rfl := hk; simp [Releaser.thread]

/-- The points `swtch` may resume a process at. -/
def Resumable (p : Slot) (k : Pc) : Prop := k = .forkret p ∨ ∃ ia k', k = .schedRet ia k'

theorem plain_of_locks_eq_empty {t : Option Slot} {k : Pc} (hw : k.Wf t) (hl : k.locks = ∅) :
    k.plain := by
  cases k <;> simp_all

theorem steady_of_locks_eq_empty {k : Pc} (hl : k.locks = ∅) : k.Steady := by
  rintro p c lk k' rfl
  simp at hl

/-- Only a process has claims. -/
theorem claims_of_wf_none {k : Pc} (hw : k.Wf none) : k.claims = none := by
  induction k with
  | release q r k ih => cases r <;> simp_all [Releaser.thread]
  | _ => simp_all

/-- A process on its way to `swtch` holds its own lock. -/
theorem mem_locks_of_not_plain {p : Slot} {k : Pc} (hw : k.Wf (some p)) (hp : ¬k.plain) :
    .proc p ∈ k.locks := by
  cases k
  case rel l k =>
    obtain ⟨hw, -, hk | ⟨q, rfl⟩⟩ := hw
    · exact absurd hk hp
    · obtain rfl : p = q := by simpa using hw
      simp
  all_goals simp_all

/-- The lock of the zombie is held. -/
theorem mem_locks_of_frees {t : Option Slot} {k : Pc} {q : Slot} (hw : k.Wf t)
    (hq : k.frees = some q) : .proc q ∈ k.locks := by
  induction k with
  | release i r k ih =>
      obtain ⟨-, -, hl, -, -, hf, -⟩ := hw.2.spec
      cases r <;> simp_all
  | sleepSet p c lk k _ => simp [hw.2.frees] at hq
  | sleepWake p lk k _ =>
      obtain ⟨-, c, hs⟩ := hw
      simp [hs.frees] at hq
  | _ => grind [frees, locks, Wf]

theorem frees_eq_none {t : Option Slot} {k : Pc} (hw : k.Wf t) (hl : ∀ j, Lock.proc j ∉ k.locks) :
    k.frees = none := by
  rcases hq : k.frees with - | q
  · rfl
  · exact absurd (mem_locks_of_frees hw hq) (hl q)

theorem Resumable.locks {p : Slot} {k : Pc} (hr : k.Resumable p) (hw : k.Wf (some p)) :
    k.locks = {.proc p} := by
  obtain rfl | ⟨ia, k', rfl⟩ := hr
  · rfl
  · obtain ⟨-, -, -, -, q, hq, hl⟩ := hw
    cases hq
    exact hl

theorem Resumable.frees {p : Slot} {k : Pc} (hr : k.Resumable p) (hw : k.Wf (some p)) :
    k.frees = none := by
  obtain rfl | ⟨ia, k', rfl⟩ := hr
  · rfl
  · exact hw.2.2.2.1

theorem Resumable.plain {p : Slot} {k : Pc} (hr : k.Resumable p) : k.plain := by
  obtain rfl | ⟨ia, k', rfl⟩ := hr <;> rfl

end Pc

theorem Leaves.not_plain {pc k : Pc} (hl : Leaves pc k) : ¬pc.plain := by
  obtain rfl | ⟨p, rfl, -⟩ := hl <;> simp

/-- A thread at `swtch` is a process that holds its own lock and no other. -/
theorem Leaves.locks {t : Option Slot} {pc k : Pc} (hl : Leaves pc k) (hw : pc.Wf t) :
    ∃ p, t = some p ∧ pc.locks = {.proc p} := by
  obtain rfl | ⟨p, rfl, -⟩ := hl
  · exact hw.2.2.2.2
  · exact ⟨p, hw, rfl⟩

/-- A silent move keeps the locks, the claim, the fate and the shape of the
point. -/
structure SameFrame (t : Option Slot) (pc k : Pc) : Prop where
  wf : k.Wf t
  locks : k.locks = pc.locks
  claims : ∀ i b, k.claims = some (i, b) → ∃ b', pc.claims = some (i, b') ∧ (b → b')
  doomed : k.doomed = pc.doomed
  plain : k.plain
  plain' : pc.plain

theorem SameFrame.clockintr {t : Option Slot} {pc k : Pc} (h : Fin n) (hf : SameFrame t pc k)
    (hl : k.locks = ∅) : SameFrame t pc (Sched.clockintr h k) := by
  obtain ⟨h1, h2, h3, h4, h5, h6⟩ := hf
  unfold Sched.clockintr
  split
  · refine ⟨⟨⟨h1, h5, hl⟩, rfl, by simp⟩, ?_, h3, h4, rfl, h6⟩
    rw [← h2]
    simp [hl]
  · exact ⟨h1, h2, h3, h4, h5, h6⟩

theorem Silent.sameFrame {s : State n} {h : Fin n} {pc k : Pc} {t : Option Slot}
    (hk : Silent s h pc k) (hw : pc.Wf t) (hc : ∀ p, t = some p → s.cproc h = some p)
    (hi : (s.cpus h).sie = true → pc.locks = ∅ ∧ s.cproc h = t) : SameFrame t pc k := by
  -- a process thread finds itself in `cpu->proc`
  have hself : ∀ q, t ≠ none → s.cproc h = some q → t = some q := by
    intro q ht hq
    obtain ⟨p, rfl⟩ := Option.ne_none_iff_exists'.1 ht
    rw [← hq, hc p rfl]
  cases hk
  case timerUser p hsie hp =>
    obtain rfl := hself p hw hp
    refine SameFrame.clockintr h ?_ (by simp)
    constructor <;> simp
  case timerKernel hsie hu =>
    obtain ⟨hl, ht⟩ := hi hsie
    have hpl := Pc.plain_of_locks_eq_empty hw hl
    refine SameFrame.clockintr h ?_ hl
    exact ⟨⟨⟨hw, hpl, hl⟩, rfl, hl, ht⟩, rfl, fun i b hb => ⟨b, hb, id⟩, rfl, rfl, hpl⟩
  case fork p hp | wait p _ hp | exit p _ hp | sleepNeg p hp | sleep p _ hp | other p _ hp =>
    obtain rfl := hself p hw hp
    constructor <;> simp [Pc.Entry]
  case trapYield p q k hr hq =>
    obtain ⟨hw, hpl, hl, ho⟩ := hw
    obtain rfl := hself q (by simp [← ho]) hq
    have hfr := Pc.frees_eq_none hw (by simp [hl])
    constructor <;> simp_all
  case wakeupNext c i hi k =>
    obtain ⟨hw, hpl, hj, hk⟩ := hw
    have hfr := Pc.frees_eq_none hw hj
    constructor <;> simp_all
  case forkret p q hq | waitScanSleep p q _ _ _ hq | sleepLoopSleep p q _ _ hq =>
    have hw : t = some p := hw
    obtain rfl := hself q (by simp [hw]) hq
    obtain rfl := Option.some.inj hw
    constructor <;> simp [Pc.Sleeps, Finset.erase_insert_of_ne]
  case clockTick k =>
    obtain ⟨hw, hpl, hl⟩ := hw
    have hst := Pc.steady_of_locks_eq_empty hl
    constructor <;> simp_all
  case releaseMem q r k =>
    obtain ⟨-, -, -, hm, -⟩ := hw.2.spec
    constructor <;> simp_all
  all_goals
    clear hc hi hself
    constructor <;> simp_all [failFork, reap, Pc.Entry, Pc.Releases, Releaser.thread]

theorem Silent.frees {s : State n} {h : Fin n} {pc k : Pc} {q : Slot} (hk : Silent s h pc k)
    (hq : k.frees = some q) : pc.frees = some q ∨ (s.procs q).state = .zombie := by
  cases hk
  case timerUser | timerKernel =>
    unfold clockintr at hq
    split at hq <;> simp_all
  all_goals simp_all [failFork, reap]

/-! ## The moves that change a slot -/

section Update

variable {s : State n} {h : Fin n} {pc k : Pc} {i : Slot} {q : Proc} {t : Option Slot}

/-- A slot changes under its own lock, apart from the pid of a claimed slot. -/
theorem Update.mem_locks (hu : Update s h pc i q k) (hw : pc.Wf t) :
    .proc i ∈ pc.locks ∨ (pc.claims = some (i, false) ∧ ∃ v, q = { s.procs i with pid := v }) := by
  cases hu
  case release r hl => exact .inl hw.2.spec.2.2.1
  case setPid p v => exact .inr ⟨rfl, v, rfl⟩
  all_goals simp_all

theorem Update.locks_eq (hu : Update s h pc i q k) (hw : pc.Wf t) : k.locks = pc.locks := by
  cases hu
  case zombie st => exact Finset.pair_comm _ _
  case awake lk k =>
    obtain ⟨-, c, hs⟩ := hw
    simp [hs.locks]
  all_goals simp_all

theorem Update.wf (hu : Update s h pc i q k) (hw : pc.Wf t) : k.Wf t := by
  cases hu
  case yield k =>
    obtain ⟨hk, hpl, ht, hl⟩ := hw
    have hfr := Pc.frees_eq_none hk (by simp [hl])
    have hst := Pc.steady_of_locks_eq_empty hl
    simp_all
  case sleep k =>
    obtain ⟨ht, hs⟩ := hw
    exact ⟨⟨ht, _, hs⟩, rfl, by simp, hs.frees, _, ht, rfl⟩
  case awake lk k =>
    obtain ⟨ht, c, hs⟩ := hw
    obtain ⟨-, rfl, a, rfl⟩ | ⟨-, rfl, m, st, rfl⟩ := hs <;>
      simp [ht, Pc.Entry]
  case release r hl => exact hw.1 ▸ hw.2.spec.1
  all_goals simp_all [Pc.Releases, Releaser.thread]

/-- A slot change that neither heads for `swtch` nor claims a slot is a quiet one
for its thread. -/
theorem Update.sameFrame (hu : Update s h pc i q k) (hw : pc.Wf t) (hp : k.plain)
    (hc : k.claims = none ∨ k.claims = pc.claims) : SameFrame t pc k := by
  refine ⟨hu.wf hw, hu.locks_eq hw, ?_, ?_, hp, ?_⟩
  · rintro j b hj
    rcases hc with hc | hc
    · rw [hc] at hj
      cases hj
    · exact ⟨b, hc ▸ hj, id⟩
  · cases hu <;> first | rfl | simp_all
  · cases hu <;> rfl

/-- The only zombie a slot change goes on to release is the one in that slot. -/
theorem Update.frees (hu : Update s h pc i q k) (hw : pc.Wf t) {j : Slot}
    (hj : k.frees = some j) : j = i ∧ q.state = .zombie := by
  cases hu
  case wake c k _ _ =>
    obtain ⟨hw, -, hl, -⟩ := hw
    simp [Pc.frees_eq_none hw hl] at hj
  case yield k =>
    obtain ⟨hw, -, -, hl⟩ := hw
    simp [Pc.frees_eq_none hw (by simp [hl])] at hj
  case sleep k =>
    simp [hw.2.frees] at hj
  case awake k =>
    obtain ⟨-, c, hs⟩ := hw
    simp [hs.frees] at hj
  case release r hl =>
    rw [hw.2.spec.2.2.2.2.2.1] at hj
    cases hj
  all_goals simp_all

end Update

end Wl00.Sched
