import Wl00.Sched.Basic

/-!
# What a step can do

`next` is one large case split.  This module says once what comes out of it:
`Step` sorts the steps by their effect on the shared state, with the points a
hart may go to and what it has read on the way (`Silent`, `Update`), and
`next_step` is the inversion of `next`.  The invariants are proved from `Step`
and never unfold `next`.
-/

namespace Wl00.Sched

variable {n : Nat}

/-! ## The fields after an update -/

namespace State

variable (s : State n) (h : Fin n) (k : Pc)

@[simp] theorem procs_setPc : (s.setPc h k).procs = s.procs := by
  unfold setPc; split <;> rfl

@[simp] theorem locks_setPc : (s.setPc h k).locks = s.locks := by
  unfold setPc; split <;> rfl

@[simp] theorem cpus_setPc : (s.setPc h k).cpus = s.cpus := by
  unfold setPc; split <;> rfl

@[simp] theorem cproc_setPc : (s.setPc h k).cproc = s.cproc := by
  unfold setPc; split <;> rfl

@[simp] theorem cur_setPc : (s.setPc h k).cur = s.cur := by
  unfold setPc; split <;> rfl

@[simp] theorem currPid_setPc : (s.setPc h k).currPid = s.currPid := by
  unfold setPc; split <;> rfl

@[simp] theorem ticks_setPc : (s.setPc h k).ticks = s.ticks := by
  unfold setPc; split <;> rfl

theorem tpc_setPc (p : Slot) :
    (s.setPc h k).tpc p = if s.cur h = some p then k else s.tpc p := by
  unfold setPc
  split
  · next hc => simp [hc]
  · next q hc =>
    by_cases hp : p = q
    · subst hp; simp [hc]
    · simp [hc, hp, Ne.symm hp]

theorem spc_setPc (h' : Fin n) :
    (s.setPc h k).spc h' = if s.cur h = none ∧ h' = h then k else s.spc h' := by
  unfold setPc
  split
  · next hc => simp [hc, Function.update_apply]
  · next q hc => simp [hc]

theorem pcOf_none {h' : Fin n} (hc : s.cur h' = none) : s.pcOf h' = s.spc h' := by
  rw [pcOf, hc]

theorem pcOf_some {h' : Fin n} {p : Slot} (hc : s.cur h' = some p) : s.pcOf h' = s.tpc p := by
  rw [pcOf, hc]

@[simp] theorem pcOf_setCpu (c : Spinlock.Cpu) (h' : Fin n) :
    (s.setCpu h c).pcOf h' = s.pcOf h' := rfl

@[simp] theorem pcOf_setProc (i : Slot) (q : Proc) (h' : Fin n) :
    (s.setProc i q).pcOf h' = s.pcOf h' := rfl

@[simp] theorem pcOf_setLock (l : Lock) (o : Option (Fin n)) (h' : Fin n) :
    (s.setLock l o).pcOf h' = s.pcOf h' := rfl

@[simp] theorem pcOf_setCproc (o : Option Slot) (h' : Fin n) :
    (s.setCproc h o).pcOf h' = s.pcOf h' := rfl

@[simp] theorem pcOf_setPc_self : (s.setPc h k).pcOf h = k := by
  cases hc : s.cur h with
  | none => rw [pcOf_none _ (by simpa using hc), spc_setPc]; simp [hc]
  | some p => rw [pcOf_some _ (by simpa using hc), tpc_setPc]; simp [hc]

/-- Another hart keeps its point, unless the two stand on one stack. -/
theorem pcOf_setPc_of_ne {h' : Fin n} (hne : h' ≠ h)
    (hd : ∀ p, s.cur h = some p → s.cur h' ≠ some p) : (s.setPc h k).pcOf h' = s.pcOf h' := by
  cases hc : s.cur h' with
  | none =>
      rw [pcOf_none _ (by simpa using hc), pcOf_none _ hc, spc_setPc]
      simp [hne]
  | some p =>
      rw [pcOf_some _ (by simpa using hc), pcOf_some _ hc, tpc_setPc]
      rw [if_neg fun hp => hd p hp hc]

end State

/-! ## Silent moves -/

/-- `Silent s h pc k`: hart `h` at `pc` goes on to `k` in the state `s` without
touching a lock, a slot or `cpu->proc`.  The hypotheses are what it has read. -/
inductive Silent (s : State n) (h : Fin n) : Pc → Pc → Prop
  | mm (k) : Silent s h (.mm k) k
  | mmMem (k) : Silent s h (.mm k) (.acq .mem (.rel .mem (.mm k)))
  | mmPrint (k) : Silent s h (.mm k) (.acq .print (.rel .print (.mm k)))
  | fork (p) : s.cproc h = some p → Silent s h .user (.paScan p 0)
  | wait (p addr) : s.cproc h = some p →
      Silent s h .user (.acq .wait (.waitScan p addr 0 false))
  | exit (p st) : s.cproc h = some p →
      Silent s h .user (.mm (.acq .wait (.exitScan p st 0)))
  | sleepNeg (p) : s.cproc h = some p → Silent s h .user (.sysret .sleep p (-1))
  | sleep (p m) : s.cproc h = some p → Silent s h .user (.acq .ticks (.sleepStart p m))
  | other (p v) : s.cproc h = some p → Silent s h .user (.mm (.sysret .other p v))
  | timerUser (p) : (s.cpus h).sie = true → s.cproc h = some p →
      Silent s h .user (clockintr h (.acq (.proc p) (.yieldSet p .utrapret)))
  | timerKernel (pc) : (s.cpus h).sie = true → pc ≠ .user →
      Silent s h pc (clockintr h (.trapYield (s.cproc h) (.sret pc)))
  | utrapret : Silent s h .utrapret .user
  | sysret (c p v) : Silent s h (.sysret c p v) .utrapret
  | clockTick (k) : Silent s h (.clockTick k) (.wakeup (some .ticks) 0 (.rel .ticks k))
  | trapYieldNo (o k) : (∀ p, o = some p → (s.procs p).state ≠ .running) →
      Silent s h (.trapYield o k) k
  | trapYield (p q k) : (s.procs p).state = .running → s.cproc h = some q →
      Silent s h (.trapYield (some p) k) (.acq (.proc q) (.yieldSet q k))
  | sret (k) : Silent s h (.sret k) k
  | wakeupNext (c i hi k) :
      Silent s h (.wakeup c i k) (.acq (.proc ⟨i, hi⟩) (.wakeCheck c ⟨i, hi⟩ k))
  | wakeupEnd (c i k) : NPROC ≤ i → Silent s h (.wakeup c i k) k
  | wakeCheckNo (c i k) : ¬((s.procs i).chan = c ∧ (s.procs i).state = .waiting) →
      Silent s h (.wakeCheck c i k) (.rel (.proc i) (.wakeup c (i + 1) k))
  | schedRet (ia k) : Silent s h (.schedRet ia k) k
  | forkret (p q) : s.cproc h = some q → Silent s h (.forkret p) (.rel (.proc q) .utrapret)
  | paScanNext (p i hi) : Silent s h (.paScan p i) (.acq (.proc ⟨i, hi⟩) (.paCheck p ⟨i, hi⟩))
  | paScanEnd (p i) : NPROC ≤ i → Silent s h (.paScan p i) (.mm (.sysret .fork p (-1)))
  | paCheckNo (p i) : (s.procs i).state ≠ .unused →
      Silent s h (.paCheck p i) (.rel (.proc i) (.paScan p (i + 1)))
  | paPid (p i) : Silent s h (.paPid p i) (.rel .pid (.paSetPid p i s.currPid))
  | paAllocFail (p i) : Silent s h (.paAlloc p i) (failFork p i)
  | forkCopyFail (p i) : Silent s h (.forkCopy p i) (failFork p i)
  | forkCopy (p i) : Silent s h (.forkCopy p i) (.forkPid p i)
  | forkPid (p i) : Silent s h (.forkPid p i)
      (.acq .wait (.acq (.proc i) (.forkPublish p i (s.procs i).pid)))
  | releaseMem (q r k) : Silent s h (.release q r k) (.acq .mem (.rel .mem (.release q r k)))
  | waitScanNo (p addr i hi hc) : (s.procs ⟨i, hi⟩).parent ≠ some p →
      Silent s h (.waitScan p addr i hc) (.waitScan p addr (i + 1) hc)
  | waitScanChild (p addr i hi hc) : (s.procs ⟨i, hi⟩).parent = some p →
      Silent s h (.waitScan p addr i hc) (.acq (.proc ⟨i, hi⟩) (.waitCheck p addr ⟨i, hi⟩))
  | waitScanNone (p addr i) : NPROC ≤ i →
      Silent s h (.waitScan p addr i false) (.rel .wait (.sysret .wait p (-1)))
  | waitScanSleep (p q addr i) : NPROC ≤ i → s.cproc h = some q →
      Silent s h (.waitScan p addr i true) (.acq (.proc q) (.rel .wait
        (.sleepSet q (.proc p) .wait (.waitScan p addr 0 false))))
  | waitCheckCopy (p addr i) : (s.procs i).state = .zombie → addr ≠ 0 →
      Silent s h (.waitCheck p addr i)
        (.waitCopyout p addr i (s.procs i).pid (s.procs i).xstate)
  | waitCheckReap (p i) : (s.procs i).state = .zombie →
      Silent s h (.waitCheck p 0 i) (reap p i (s.procs i).pid)
  | waitCheckNo (p addr i) : (s.procs i).state ≠ .zombie →
      Silent s h (.waitCheck p addr i) (.rel (.proc i) (.waitScan p addr (i + 1) true))
  | waitCopyFail (p addr i pid x) : Silent s h (.waitCopyout p addr i pid x)
      (.rel (.proc i) (.rel .wait (.sysret .wait p (-1))))
  | waitCopy (p addr i pid x) : Silent s h (.waitCopyout p addr i pid x) (reap p i pid)
  | exitScanFound (p st i hi) : (s.procs ⟨i, hi⟩).pid = 1 → (⟨i, hi⟩ : Slot) ≠ p →
      Silent s h (.exitScan p st i) (.exitScanState p st ⟨i, hi⟩)
  | exitScanNo (p st i hi) : ¬((s.procs ⟨i, hi⟩).pid = 1 ∧ (⟨i, hi⟩ : Slot) ≠ p) →
      Silent s h (.exitScan p st i) (.exitScan p st (i + 1))
  | exitScanEnd (p st i) : NPROC ≤ i →
      Silent s h (.exitScan p st i) (.exitChildren p st none 0 false)
  | exitScanTake (p st i) : (s.procs i).state ≠ .zombie →
      Silent s h (.exitScanState p st i) (.exitChildren p st (some i) 0 false)
  | exitScanZombie (p st i) : (s.procs i).state = .zombie →
      Silent s h (.exitScanState p st i) (.exitScan p st (i + 1))
  | exitChild (p st r i hi g) : (s.procs ⟨i, hi⟩).parent = some p →
      Silent s h (.exitChildren p st r i g) (.acq (.proc ⟨i, hi⟩) (.exitHand p st r ⟨i, hi⟩ g))
  | exitChildNo (p st r i hi g) : (s.procs ⟨i, hi⟩).parent ≠ some p →
      Silent s h (.exitChildren p st r i g) (.exitChildren p st r (i + 1) g)
  | exitChildEndWake (p st r i) : NPROC ≤ i →
      Silent s h (.exitChildren p st r i true) (.wakeup (r.map .proc) 0 (.exitParent p st))
  | exitChildEnd (p st r i) : NPROC ≤ i →
      Silent s h (.exitChildren p st r i false) (.exitParent p st)
  | exitParentNone (p st) : (s.procs p).parent = none →
      Silent s h (.exitParent p st) (.acq (.proc p) (.exitZombie p st))
  | exitParent (p st) : (s.procs p).parent ≠ none →
      Silent s h (.exitParent p st) (.exitParentArg p st)
  | exitParentArg (p st) : Silent s h (.exitParentArg p st)
      (.wakeup ((s.procs p).parent.map .proc) 0 (.acq (.proc p) (.exitZombie p st)))
  | sleepStart (p m) : Silent s h (.sleepStart p m) (.sleepLoop p m s.ticks)
  | sleepLoopSleep (p q m st) : s.cproc h = some q → Silent s h (.sleepLoop p m st)
      (.acq (.proc q) (.rel .ticks (.sleepSet q .ticks .ticks (.sleepLoop p m st))))
  | sleepLoopEnd (p m st) : Silent s h (.sleepLoop p m st) (.rel .ticks (.sysret .sleep p 0))
  | schedOn : Silent s h .schedOn .schedOff
  | schedOff : Silent s h .schedOff (.schedScan 0)
  | schedScanNext (i hi) : Silent s h (.schedScan i) (.acq (.proc ⟨i, hi⟩) (.schedCheck ⟨i, hi⟩))
  | schedScanEnd (i) : NPROC ≤ i → Silent s h (.schedScan i) .schedOn
  | schedCheckNo (i) : (s.procs i).state ≠ .ready →
      Silent s h (.schedCheck i) (.rel (.proc i) (.schedScan (i + 1)))
  | schedReap (i) : (s.procs i).state = .zombie → (s.procs i).parent = none →
      Silent s h (.schedReap i) (.release i .sched (.rel (.proc i) (.schedScan (i + 1))))
  | schedReapNo (i) : ¬((s.procs i).state = .zombie ∧ (s.procs i).parent = none) →
      Silent s h (.schedReap i) (.rel (.proc i) (.schedScan (i + 1)))

/-! ## Moves that change a slot -/

/-- `Update s h pc i q k`: hart `h` at `pc` makes slot `i` hold `q` and goes on
to `k`. -/
inductive Update (s : State n) (h : Fin n) : Pc → Slot → Proc → Pc → Prop
  | wake (c i k) : (s.procs i).chan = c → (s.procs i).state = .waiting →
      Update s h (.wakeCheck c i k) i { s.procs i with state := .ready }
        (.rel (.proc i) (.wakeup c (i + 1) k))
  | yield (p k) : Update s h (.yieldSet p k) p { s.procs p with state := .ready }
      (.sched (.rel (.proc p) k))
  | sleep (p c lk k) : Update s h (.sleepSet p c lk k) p
      { s.procs p with chan := some c, state := .waiting } (.sched (.sleepWake p lk k))
  | awake (p lk k) : Update s h (.sleepWake p lk k) p { s.procs p with chan := none }
      (.rel (.proc p) (.acq lk k))
  | claim (p i) : (s.procs i).state = .unused →
      Update s h (.paCheck p i) i { s.procs i with state := .new }
        (.rel (.proc i) (.acq .pid (.paPid p i)))
  | setPid (p i v) : Update s h (.paSetPid p i v) i { s.procs i with pid := v }
      (.mm (.paAlloc p i))
  | publish (p i v) : Update s h (.forkPublish p i v) i
      { s.procs i with parent := some p, state := .ready, origin := .forked p (s.procs p).gen }
      (.rel (.proc i) (.rel .wait (.sysret .fork p v)))
  | release (q r k) : s.locks (.proc q) = some h →
      Update s h (.release q r k) q (releaseproc (s.procs q)) k
  | handNone (p st i g) : (s.procs i).state ≠ .zombie →
      Update s h (.exitHand p st none i g) i
        { s.procs i with parent := none, origin := .none }
        (.rel (.proc i) (.exitChildren p st none (i + 1) g))
  | handRelease (p st i g) : (s.procs i).state = .zombie →
      Update s h (.exitHand p st none i g) i
        { s.procs i with parent := none, origin := .none }
        (.release i (.kexit p) (.rel (.proc i) (.exitChildren p st none (i + 1) g)))
  | hand (p st r i g) : (s.procs i).state ≠ .zombie →
      Update s h (.exitHand p st (some r) i g) i
        { s.procs i with parent := some r, origin := .handed r (s.procs r).gen }
        (.rel (.proc i) (.exitChildren p st (some r) (i + 1) g))
  | handZombie (p st r i g) : (s.procs i).state = .zombie →
      Update s h (.exitHand p st (some r) i g) i
        { s.procs i with parent := some r, origin := .handed r (s.procs r).gen }
        (.rel (.proc i) (.exitChildren p st (some r) (i + 1) true))
  | zombie (p st) : Update s h (.exitZombie p st) p
      { s.procs p with xstate := st, state := .zombie } (.rel .wait (.exitSched p))

/-- `sched` is reached from `pc` and leaves the thread to resume at `k`. -/
def Leaves (pc k : Pc) : Prop := pc = .sched k ∨ ∃ p, pc = .exitSched p ∧ k = .dead p

/-- The ways into `panic`: a lock taken twice or released by a stranger, a
failing check of `pop_off`, `sched` or `releaseproc`, a thread on a hart whose
`cpu->proc` is NULL, and a zombie that runs again. -/
inductive Panics (s : State n) (h : Fin n) : Pc → Prop
  | relock (l k) : s.locks l = some h → Panics s h (.acq l k)
  | unlock (l k) : s.locks l ≠ some h → Panics s h (.rel l k)
  | pop (l k m) : s.locks l = some h → Spinlock.popOff (s.cpus h) = .error m →
      Panics s h (.rel l k)
  | user : s.cproc h = none → Panics s h .user
  | yield (p k) : s.cproc h = none → Panics s h (.trapYield (some p) k)
  | forkret (p) : s.cproc h = none → Panics s h (.forkret p)
  | wait (p addr i) : s.cproc h = none → Panics s h (.waitScan p addr i true)
  | sleepLoop (p m st) : s.cproc h = none → Panics s h (.sleepLoop p m st)
  | schedNull (pc k) : Leaves pc k → s.cproc h = none → Panics s h pc
  | sched (pc k p) : Leaves pc k → s.cproc h = some p →
      (s.locks (.proc p) ≠ some h ∨ (s.cpus h).depth ≠ 1 ∨ (s.procs p).state = .running ∨
        (s.cpus h).sie = true) → Panics s h pc
  | release (q r k) : s.locks (.proc q) ≠ some h → Panics s h (.release q r k)
  | dead (p) : Panics s h (.dead p)

/-- Everything a step of hart `h` can do to the state. -/
inductive Step (s : State n) (h : Fin n) : State n → Prop
  | silent {k : Pc} {c : Spinlock.Cpu} {pid : Int} {t : Nat} :
      Silent s h (s.pcOf h) k → c.depth = (s.cpus h).depth →
      (c.sie = true → (s.cpus h).sie = true ∨ s.pcOf h = .user ∨ s.pcOf h = .utrapret ∨
        s.pcOf h = .schedOn ∨ s.pcOf h = .sret k) →
      (pid = s.currPid ∨ ∃ p i, s.pcOf h = .paPid p i ∧ pid = succPid s.currPid) →
      Step s h (({ s with currPid := pid, ticks := t }.setCpu h c).setPc h k)
  | update {i : Slot} {q : Proc} {k : Pc} : Update s h (s.pcOf h) i q k →
      Step s h ((s.setProc i q).setPc h k)
  | acq {l : Lock} {k : Pc} : s.pcOf h = .acq l k → s.locks l = none →
      Step s h (((s.setLock l (some h)).setCpu h (Spinlock.pushOff (s.cpus h))).setPc h k)
  | rel {l : Lock} {k : Pc} {c : Spinlock.Cpu} : s.pcOf h = .rel l k → s.locks l = some h →
      Spinlock.popOff (s.cpus h) = .ok c →
      Step s h (((s.setLock l none).setCpu h c).setPc h k)
  | alloc {p i : Slot} : s.pcOf h = .paAlloc p i →
      Step s h ({ s with tpc := Function.update s.tpc i (.forkret i) }.setPc h
        (.mm (.forkCopy p i)))
  | dispatch {i : Slot} : s.pcOf h = .schedCheck i → (s.procs i).state = .ready →
      Step s h (((s.setProc i { s.procs i with state := .running }).setCproc h (some i)).setPc h
        (.schedSwtch i))
  | enter {i : Slot} : s.pcOf h = .schedSwtch i →
      Step s h { s with
        spc := Function.update s.spc h (.schedBack i)
        cur := Function.update s.cur h (some i) }
  | leave {p : Slot} {k : Pc} : Leaves (s.pcOf h) k → s.cproc h = some p →
      (s.procs p).state ≠ .running →
      Step s h { s with
        tpc := Function.update s.tpc p (.schedRet (s.cpus h).intena k)
        cur := Function.update s.cur h none }
  | back {i : Slot} : s.pcOf h = .schedBack i →
      Step s h ((s.setCproc h none).setPc h (.schedReap i))
  | panic : Panics s h (s.pcOf h) → Step s h (s.setPc h .panic)

/-- A silent move that leaves the hart's interrupt bookkeeping alone. -/
theorem Step.plain {s : State n} {h : Fin n} {k : Pc} (hk : Silent s h (s.pcOf h) k) :
    Step s h (s.setPc h k) := by
  have hs : Step s h (({ s with currPid := s.currPid, ticks := s.ticks }.setCpu h
      (s.cpus h)).setPc h k) := .silent hk rfl .inl (.inl rfl)
  have he : ({ s with currPid := s.currPid, ticks := s.ticks } : State n).setCpu h (s.cpus h) = s := by
    simp [State.setCpu]
  rwa [he] at hs

theorem sched_step {s : State n} {h : Fin n} {k : Pc} (hl : Leaves (s.pcOf h) k) :
    Step s h (sched s h k) := by
  unfold sched
  split
  · next hc => exact .panic (.schedNull _ k hl hc)
  · next p hc =>
    split
    · next hb => exact .panic (.sched _ k p hl hc hb)
    · next hb =>
      simp only [not_or] at hb
      exact .leave hl hc hb.2.2.1

theorem trap_step {s s' : State n} {h : Fin n} {c : Choice} (hp : s.pcOf h = .user)
    (ht : trap s h c = some s') : Step s h s' := by
  have key : ∀ b k, Silent s h .user k → Step s h ((s.setSie h b).setPc h k) := by
    intro b k hk
    rw [← hp] at hk
    exact .silent hk rfl (fun _ => .inr (.inl hp)) (.inl rfl)
  unfold trap at ht
  split at ht
  · next hc => cases ht; exact .panic (by rw [hp]; exact .user hc)
  · next p hc =>
    split at ht
    · cases ht; exact key _ _ (.fork p hc)
    · cases ht; exact key _ _ (.wait p _ hc)
    · cases ht; exact key _ _ (.exit p _ hc)
    · cases ht; exact key _ _ (.exit p _ hc)
    · split at ht
      · cases ht; exact key _ _ (.sleepNeg p hc)
      · cases ht; exact key _ _ (.sleep p _ hc)
    · cases ht; exact key _ _ (.other p _ hc)
    · cases ht

theorem timer_step {s s' : State n} {h : Fin n} (ht : timer s h = some s') : Step s h s' := by
  unfold timer at ht
  split at ht
  · next hsie =>
    split at ht
    · next hp =>
      split at ht
      · next hc => cases ht; exact .panic (by rw [hp]; exact .user hc)
      · next p hc =>
        cases ht
        exact .silent (by rw [hp]; exact .timerUser p hsie hc) rfl (by simp) (.inl rfl)
    · next hp =>
      cases ht
      exact .silent (.timerKernel _ hsie hp) rfl (by simp) (.inl rfl)
  · cases ht

theorem go_step {s s' : State n} {h : Fin n} {c : Choice} (hg : go s h c = some s') :
    Step s h s' := by
  have plain : ∀ {pc k}, s.pcOf h = pc → Silent s h pc k → Step s h (s.setPc h k) := by
    intro pc k hp hk
    exact .plain (by rwa [hp])
  have upd : ∀ {pc i q k}, s.pcOf h = pc → Update s h pc i q k →
      Step s h ((s.setProc i q).setPc h k) := by
    intro pc i q k hp hk
    exact .update (by rwa [hp])
  cases hp : s.pcOf h <;> simp only [go, hp] at hg
  case acq l k =>
    unfold lock at hg
    split at hg
    · next hl => cases hg; exact .acq hp hl
    · next h' hl =>
      split at hg
      · next hh => cases hg; exact .panic (by rw [hp]; exact .relock l k (hh ▸ hl))
      · cases hg
  case rel l k =>
    cases hg
    unfold unlock
    split
    · next hl =>
      split
      · next hpop => exact .rel hp hl hpop
      · next hpop => exact .panic (by rw [hp]; exact .pop l k _ hl hpop)
    · next hl => exact .panic (by rw [hp]; exact .unlock l k hl)
  case mm k =>
    split at hg <;> cases hg
    · exact plain hp (.mmMem k)
    · exact plain hp (.mmPrint k)
    · exact plain hp (.mm k)
  case user => exact trap_step hp hg
  case utrapret =>
    cases hg
    exact .silent (by rw [hp]; exact .utrapret) rfl (fun _ => .inr (.inr (.inl hp))) (.inl rfl)
  case sysret c p v => cases hg; exact plain hp (.sysret c p v)
  case clockTick k =>
    cases hg
    have hs : Step s h (({ s with currPid := s.currPid, ticks := (s.ticks + 1) % 2 ^ 32 }.setCpu h
        (s.cpus h)).setPc h (.wakeup (some .ticks) 0 (.rel .ticks k))) :=
      .silent (by rw [hp]; exact .clockTick k) rfl .inl (.inl rfl)
    simpa [State.setCpu] using hs
  case trapYield o k =>
    cases o with
    | none => cases hg; exact plain hp (.trapYieldNo none k (by simp))
    | some p =>
        simp only at hg
        split at hg <;> cases hg
        · next hr =>
          unfold yield
          split
          · next hc => exact .panic (by rw [hp]; exact .yield p k hc)
          · next q hc => exact plain hp (.trapYield p q k hr hc)
        · next hr => exact plain hp (.trapYieldNo _ k (by simpa using hr))
  case sret k =>
    cases hg
    exact .silent (by rw [hp]; exact .sret k) rfl (fun _ => .inr (.inr (.inr (.inr hp)))) (.inl rfl)
  case wakeup c i k =>
    split at hg <;> cases hg
    · next hi => exact plain hp (.wakeupNext c i hi k)
    · next hi => exact plain hp (.wakeupEnd c i k (not_lt.1 hi))
  case wakeCheck c i k =>
    split at hg <;> cases hg
    · next hq => exact upd hp (.wake c i k hq.1 hq.2)
    · next hq => exact plain hp (.wakeCheckNo c i k hq)
  case sched k => cases hg; exact sched_step (.inl hp)
  case schedRet ia k =>
    cases hg
    exact .silent (by rw [hp]; exact .schedRet ia k) rfl .inl (.inl rfl)
  case yieldSet p k => cases hg; exact upd hp (.yield p k)
  case sleepSet p c lk k => cases hg; exact upd hp (.sleep p c lk k)
  case sleepWake p lk k => cases hg; exact upd hp (.awake p lk k)
  case forkret p =>
    split at hg <;> cases hg
    · next hc => exact .panic (by rw [hp]; exact .forkret p hc)
    · next q hc => exact plain hp (.forkret p q hc)
  case paScan p i =>
    split at hg <;> cases hg
    · next hi => exact plain hp (.paScanNext p i hi)
    · next hi => exact plain hp (.paScanEnd p i (not_lt.1 hi))
  case paCheck p i =>
    split at hg <;> cases hg
    · next hu => exact upd hp (.claim p i hu)
    · next hu => exact plain hp (.paCheckNo p i hu)
  case paPid p i =>
    cases hg
    have hs : Step s h (({ s with currPid := succPid s.currPid, ticks := s.ticks }.setCpu h
        (s.cpus h)).setPc h (.rel .pid (.paSetPid p i s.currPid))) :=
      .silent (by rw [hp]; exact .paPid p i) rfl .inl (.inr ⟨p, i, hp, rfl⟩)
    simpa [State.setCpu] using hs
  case paSetPid p i v => cases hg; exact upd hp (.setPid p i v)
  case paAlloc p i =>
    split at hg <;> cases hg
    · exact plain hp (.paAllocFail p i)
    · exact .alloc hp
  case forkCopy p i =>
    split at hg <;> cases hg
    · exact plain hp (.forkCopyFail p i)
    · exact plain hp (.forkCopy p i)
  case forkPid p i => cases hg; exact plain hp (.forkPid p i)
  case forkPublish p i v => cases hg; exact upd hp (.publish p i v)
  case release q r k =>
    split at hg
    · cases hg; exact plain hp (.releaseMem q r k)
    · split at hg <;> cases hg
      · next hl => exact upd hp (.release q r k hl)
      · next hl => exact .panic (by rw [hp]; exact .release q r k hl)
  case waitScan p addr i hc =>
    split at hg
    · next hi =>
      split at hg <;> cases hg
      · next hq => exact plain hp (.waitScanNo p addr i hi hc hq)
      · next hq => exact plain hp (.waitScanChild p addr i hi hc (not_not.1 hq))
    · next hi =>
      split at hg <;> cases hg
      · next hf => subst hf; exact plain hp (.waitScanNone p addr i (not_lt.1 hi))
      · next hf =>
        have ht : hc = true := by simpa using hf
        subst ht
        unfold sleep
        split
        · next hc => exact .panic (by rw [hp]; exact .wait p addr i hc)
        · next q hc => exact plain hp (.waitScanSleep p q addr i (not_lt.1 hi) hc)
  case waitCheck p addr i =>
    split at hg
    · next hz =>
      split at hg <;> cases hg
      · next ha => exact plain hp (.waitCheckCopy p addr i hz ha)
      · next ha =>
        have ha : addr = 0 := not_not.1 ha
        subst ha
        exact plain hp (.waitCheckReap p i hz)
    · next hz => cases hg; exact plain hp (.waitCheckNo p addr i hz)
  case waitCopyout p addr i pid x =>
    split at hg <;> cases hg
    · exact plain hp (.waitCopyFail p addr i pid x)
    · exact plain hp (.waitCopy p addr i pid x)
  case exitScan p st i =>
    split at hg
    · next hi =>
      split at hg <;> cases hg
      · next hq => exact plain hp (.exitScanFound p st i hi hq.1 hq.2)
      · next hq => exact plain hp (.exitScanNo p st i hi hq)
    · next hi => cases hg; exact plain hp (.exitScanEnd p st i (not_lt.1 hi))
  case exitScanState p st i =>
    split at hg <;> cases hg
    · next hz => exact plain hp (.exitScanTake p st i hz)
    · next hz => exact plain hp (.exitScanZombie p st i (not_not.1 hz))
  case exitChildren p st r i g =>
    split at hg
    · next hi =>
      split at hg <;> cases hg
      · next hq => exact plain hp (.exitChild p st r i hi g hq)
      · next hq => exact plain hp (.exitChildNo p st r i hi g hq)
    · next hi =>
      cases g <;> simp only [if_true, if_false, Bool.false_eq_true] at hg <;> cases hg
      · exact plain hp (.exitChildEnd p st r i (not_lt.1 hi))
      · exact plain hp (.exitChildEndWake p st r i (not_lt.1 hi))
  case exitHand p st r i g =>
    cases r with
    | none =>
        simp only at hg
        split at hg <;> cases hg
        · next hz => exact upd hp (.handRelease p st i g hz)
        · next hz => exact upd hp (.handNone p st i g hz)
    | some r =>
        simp only at hg
        split at hg <;> cases hg
        · next hz => exact upd hp (.handZombie p st r i g hz)
        · next hz => exact upd hp (.hand p st r i g hz)
  case exitParent p st =>
    split at hg <;> cases hg
    · next hq => exact plain hp (.exitParentNone p st hq)
    · next hq => exact plain hp (.exitParent p st hq)
  case exitParentArg p st => cases hg; exact plain hp (.exitParentArg p st)
  case exitZombie p st => cases hg; exact upd hp (.zombie p st)
  case exitSched p => cases hg; exact sched_step (.inr ⟨p, hp, rfl⟩)
  case dead p => cases hg; exact .panic (by rw [hp]; exact .dead p)
  case sleepStart p m => cases hg; exact plain hp (.sleepStart p m)
  case sleepLoop p m st =>
    split at hg <;> cases hg
    · unfold sleep
      split
      · next hc => exact .panic (by rw [hp]; exact .sleepLoop p m st hc)
      · next q hc => exact plain hp (.sleepLoopSleep p q m st hc)
    · exact plain hp (.sleepLoopEnd p m st)
  case schedOn =>
    cases hg
    exact .silent (by rw [hp]; exact .schedOn) rfl (fun _ => .inr (.inr (.inr (.inl hp)))) (.inl rfl)
  case schedOff =>
    cases hg
    exact .silent (by rw [hp]; exact .schedOff) rfl (by simp) (.inl rfl)
  case schedScan i =>
    split at hg <;> cases hg
    · next hi => exact plain hp (.schedScanNext i hi)
    · next hi => exact plain hp (.schedScanEnd i (not_lt.1 hi))
  case schedCheck i =>
    split at hg <;> cases hg
    · next hr => exact .dispatch hp hr
    · next hr => exact plain hp (.schedCheckNo i hr)
  case schedSwtch i => cases hg; exact .enter hp
  case schedBack i => cases hg; exact .back hp
  case schedReap i =>
    split at hg <;> cases hg
    · next hz => exact plain hp (.schedReap i hz.1 hz.2)
    · next hz => exact plain hp (.schedReapNo i hz)
  case panic => cases hg

/-- **The inversion of `next`.** -/
theorem next_step {s s' : State n} {h : Fin n} {c : Choice} (hn : next s h c = some s') :
    Step s h s' := by
  unfold next at hn
  split at hn
  · exact timer_step hn
  · exact go_step hn

end Wl00.Sched
