import Wl00.Sched.Reap
import Wl00.Sched.Wakeup

/-!
# The life of a process

`README.md` draws the states of a process: a slot goes from UNUSED through NEW to READY, is
READY, RUNNING and WAITING in turn, and goes through ZOMBIE back to UNUSED.  Here the picture
is a theorem about every interleaving, with the thread that takes each of its arrows and the
point of the program at which it does; and a process that has gone to sleep in `wait` has
somebody to wait for.

* `Turn` — an arrow of the picture.
* `life_cycle` — a slot changes its state along an arrow, and under its own lock.
* `waiter_has_child` — a process asleep in `wait` has a live child.
-/

namespace Wl00.Sched

variable {n : Nat}

/-! ## The picture -/

/-- Hart `h` takes slot `q` from one state to the next.  `s.cur h` is the thread that it
executes, a process or none for its scheduler, and `s.pcOf h` the point that it is at. -/
inductive Turn (s : State n) (h : Fin n) (q : Slot) : ProcState → ProcState → Prop
  /-- `procalloc`, called by another process, has found the slot. -/
  | claim (p) : s.cur h = some p → p ≠ q → s.pcOf h = .paCheck p q → Turn s h q .unused .new
  /-- `fork` of another process publishes its child. -/
  | publish (p v) : s.cur h = some p → p ≠ q → s.pcOf h = .forkPublish p q v →
      Turn s h q .new .ready
  /-- `procalloc` or `fork` gives up. -/
  | giveUp (p k) : s.cur h = some p → p ≠ q → s.pcOf h = .release q (.fail p) k →
      Turn s h q .new .unused
  /-- `scheduler` picks the process. -/
  | dispatch : s.cur h = none → s.pcOf h = .schedCheck q → Turn s h q .ready .running
  /-- `yield`, by the process itself -/
  | yield (k) : s.cur h = some q → s.pcOf h = .yieldSet q k → Turn s h q .running .ready
  /-- `sleep`, by the process itself -/
  | sleep (c lk k) : s.cur h = some q → s.pcOf h = .sleepSet q c lk k →
      Turn s h q .running .waiting
  /-- `wakeup`, on the channel that the process sleeps on -/
  | wake (k) : s.pcOf h = .wakeCheck (s.procs q).chan q k → Turn s h q .waiting .ready
  /-- `kexit`, by the process itself -/
  | exit (st) : s.cur h = some q → s.pcOf h = .exitZombie q st → Turn s h q .running .zombie
  /-- `wait` of the parent releases the zombie. -/
  | reap (p k) : (s.procs q).parent = some p → s.cur h = some p → p ≠ q →
      s.pcOf h = .release q (.wait p) k → Turn s h q .zombie .unused
  /-- `kexit` of the process that was its parent and has found nobody to hand it to -/
  | reapOrphan (p k) : (s.procs q).parent = none → s.cur h = some p → p ≠ q →
      s.pcOf h = .release q (.kexit p) k → Turn s h q .zombie .unused
  /-- `scheduler`, to which a zombie without a parent has switched -/
  | reapLast (k) : (s.procs q).parent = none → s.cur h = none →
      s.pcOf h = .release q .sched k → Turn s h q .zombie .unused

section Step

variable {s s' : State n} {h : Fin n}

/-- The slot that a `fork` under way has claimed is not that of the caller. -/
theorem Inv.ne_of_claims (hi : Inv s) {p i : Slot} {b : Bool} (hu : s.cur h = some p)
    (hc : (s.pcOf h).claims = some (i, b)) : p ≠ i := by
  rintro rfl
  have hnew := (hi.claim_own hc).1
  have halive := (hi.on h p hu).2
  exact halive.2 hnew

/-- `releaseproc` -/
theorem Family.turn_release (hf : Family s) (hi : Inv s) {q : Slot} {r : Releaser} {k : Pc}
    (hp : s.pcOf h = .release q r k) : Turn s h q (s.procs q).state .unused := by
  have hw := hi.wf h
  have hl : .proc q ∈ (s.pcOf h).locks := by
    rw [hp] at hw ⊢
    exact hw.2.spec.2.2.1
  have hfrees : (s.pcOf h).frees = some q → (s.procs q).state = .zombie ∧ s.cur h ≠ some q := by
    intro hq
    have hz := hi.frees h q hq
    refine ⟨hz, fun hu => ?_⟩
    exact hi.not_cproc hl (by simp [hp]) (by simp [hz]) h (hi.cur h q hu).2
  rw [hp] at hw hfrees
  have hc := hf.child h q
  have ho := hf.orphan h q
  rw [hp] at hc ho
  cases r with
  | wait p =>
      obtain ⟨hz, hne⟩ := hfrees rfl
      rw [hz]
      exact .reap p k (hc p rfl) hw.1.symm (fun he => hne (he ▸ hw.1.symm)) hp
  | kexit p =>
      obtain ⟨hz, hne⟩ := hfrees rfl
      rw [hz]
      exact .reapOrphan p k (ho rfl) hw.1.symm (fun he => hne (he ▸ hw.1.symm)) hp
  | sched =>
      obtain ⟨hz, -⟩ := hfrees rfl
      rw [hz]
      exact .reapLast k (ho rfl) hw.1.symm hp
  | fail p =>
      have hcl : (s.pcOf h).claims = some (q, false) := by rw [hp]; rfl
      rw [(hi.claim_own hcl).1]
      exact .giveUp p k hw.1.symm (hi.ne_of_claims hw.1.symm hcl) hp

/-- A slot change of a thread goes along an arrow, or leaves the state alone. -/
theorem Family.turn_update (hf : Family s) (hi : Inv s) {i : Slot} {q : Proc} {k : Pc}
    (hu : Update s h (s.pcOf h) i q k) :
    q.state = (s.procs i).state ∨ Turn s h i (s.procs i).state q.state := by
  have hw := hi.wf h
  have hrun := fun hc hp => hi.running_of_plain (h := h) (p := i) hc hp
  have hcl := fun p b hc hb => hi.ne_of_claims (h := h) (p := p) (i := i) (b := b) hc hb
  have hnew := fun b hb => (hi.claim_own (h := h) (i := i) (b := b) hb).1
  have hrel := fun r k hp => hf.turn_release hi (h := h) (q := i) (r := r) (k := k) hp
  generalize hpc : s.pcOf h = pc at hu hw hrun hcl hnew hrel
  cases hu with
  | wake c _ k hc hst => exact .inr (by rw [hst]; exact .wake k (hc ▸ hpc))
  | yield p k =>
      have hcur : s.cur h = some i := hw.2.2.1
      exact .inr (by rw [hrun hcur rfl]; exact .yield k hcur hpc)
  | sleep p c lk k =>
      have hcur : s.cur h = some i := hw.1
      exact .inr (by rw [hrun hcur rfl]; exact .sleep c lk k hcur hpc)
  | zombie p st =>
      have hcur : s.cur h = some i := hw
      exact .inr (by rw [hrun hcur rfl]; exact .exit st hcur hpc)
  | claim p _ hst =>
      have hcur : s.cur h = some p := hw
      have hne : p ≠ i := by
        rintro rfl
        exact (hi.on h p hcur).2.1 hst
      exact .inr (by rw [hst]; exact .claim p hcur hne hpc)
  | publish p _ v =>
      have hcur : s.cur h = some p := hw
      exact .inr (by rw [hnew true rfl]; exact .publish p v hcur (hcl p true hcur rfl) hpc)
  | release _ r k hl => exact .inr (hrel r k rfl)
  | awake | setPid | handNone | handRelease | hand | handZombie => exact .inl rfl

end Step

/-- **Every process goes through its states as the picture says.**  In every run of any
number of harts, a step that changes the state of a slot is made with the lock of that slot
held, and it takes one of the arrows, at the point of the program that the arrow belongs to:
`procalloc` makes a slot NEW and `fork` makes it READY, only a scheduler makes a process
RUNNING, only the process itself ends that, in `yield`, `sleep` or `kexit`, only `wakeup` on its
channel ends a sleep, and a zombie is released by its parent in `wait`, or if it has none, by
the `kexit` that left it behind or by the scheduler that it switched to. -/
theorem life_cycle {s s' : State n} {a : Label n} (hr : (system n).Reachable s)
    (hs : (system n).step s a s') (q : Slot) (hq : (s'.procs q).state ≠ (s.procs q).state) :
    s.locks (.proc q) = some a.hart ∧ Turn s a.hart q (s.procs q).state (s'.procs q).state := by
  have hi := inv_reachable hr
  have hf := family_reachable hr
  have hstep := next_step hs.1
  constructor
  · by_contra hl
    exact hq (hi.state_step hstep fun hm => hl ((hi.lock _ _).2 hm))
  · rcases hi.proc_step hstep q with he | hu | ⟨hp, hready, he⟩
    · exact absurd (congrArg Proc.state he) hq
    · exact (hf.turn_update hi hu).resolve_left hq
    · have hcur := Inv.cur_eq_none hi.toRunInv hp fun t ht => ht
      rw [he, hready]
      exact .dispatch hcur hp

/-- `init` is READY when the kernel has booted, and the first hart that looks at its slot makes
it RUNNING. -/
theorem life_cycle_dispatch : ∃ (s s' : State 1) (a : Label 1), (system 1).Reachable s ∧
    (system 1).step s a s' ∧ Turn s a.hart 0 .ready .running := by
  have hrun : (run (boot 1) (goes 0 4)).map (fun s => ((s.procs 0).state, (next s 0 .go).map
      fun s' => (s'.procs 0).state)) = some (.ready, some .running) := by
    decide +kernel
  obtain ⟨s, hs, he⟩ := Option.map_eq_some_iff.1 hrun
  rw [Prod.mk.injEq] at he
  obtain ⟨s', hs', he'⟩ := Option.map_eq_some_iff.1 he.2
  have hr := reachable_run (.start rfl) hs
  have hturn := (life_cycle (a := ⟨0, .go, emit s 0 .go⟩) hr ⟨hs', rfl⟩ 0 (by simp [he.1, he'])).2
  rw [he.1, he'] at hturn
  exact ⟨s, s', _, hr, ⟨hs', rfl⟩, hturn⟩

/-! ## Somebody to wait for -/

/-- Some slot has `p` for its parent. -/
def HasChild (s : State n) (p : Slot) : Prop := ∃ q, (s.procs q).parent = some p

/-- What `wait` knows once it has seen a child, until it gives up `wait_lock`. -/
@[simp] def Attends (s : State n) : Pc → Prop
  | .acq l k => l ≠ .wait → Attends s k
  | .rel l k => if l = .wait then ∀ p c lk k', k = .sleepSet p c lk k' → HasChild s p
      else Attends s k
  | .waitScan p _ _ hc => hc = true → HasChild s p
  | _ => True

theorem attends_of_not_wait {s : State n} {k : Pc} (hl : .wait ∉ k.locks) : Attends s k := by
  induction k with
  | acq l k ih => exact fun hne => ih fun hm => hl (by simp [hm, Ne.symm hne])
  | rel l k ih =>
      have hne : l ≠ .wait := by
        rintro rfl
        simp at hl
      rw [Attends, if_neg hne]
      exact ih fun hm => hl (by simp [hm])
  | _ => simp_all

theorem Attends.mono {s s' : State n} {k : Pc} (hk : Attends s k)
    (hp : ∀ p, HasChild s p → HasChild s' p) : Attends s' k := by
  induction k with
  | acq l k ih => exact fun hne => ih (hk hne)
  | rel l k ih =>
      rw [Attends] at hk ⊢
      split
      · next hl =>
        rw [if_pos hl] at hk
        exact fun p c lk k' he => hp p (hk p c lk k' he)
      · next hl =>
        rw [if_neg hl] at hk
        exact ih hk
  | waitScan p addr i hc => exact fun ht => hp p (hk ht)
  | _ => trivial

/-- A process asleep in `wait` has a child, and a process on its way there knows of one. -/
structure Waiters (s : State n) : Prop where
  attends : ∀ h, Attends s (s.pcOf h)
  child : ∀ p, Dozing s p → HasChild s p

section Step

variable {s s' : State n} {h : Fin n}

theorem Silent.attends {k : Pc} (hi : Inv s) (hf : Family s) (hk : Silent s h (s.pcOf h) k)
    (ha : Attends s (s.pcOf h)) : Attends s k := by
  have hw := hi.wf h
  have hchild := hf.child h
  have hself : ∀ p q, s.cur h = some p → s.cproc h = some q → p = q := by
    intro p q hp hq
    exact Option.some.inj ((hi.cur h p hp).2.symm.trans hq)
  generalize s.pcOf h = pc at hk ha hw hchild
  cases hk
  case timerUser | timerKernel =>
    unfold clockintr
    split <;> simp
  case mm | sret => exact attends_of_not_wait (by simp [hw.2.2])
  case trapYieldNo => exact attends_of_not_wait (by simp [hw.2.2.1])
  case schedRet =>
    obtain ⟨p, -, hl⟩ := hw.2.2.2.2
    exact attends_of_not_wait (by simp [hl])
  case wakeupEnd c i hi =>
    by_cases hwait : .wait ∈ k.locks
    · obtain ⟨p, st, rfl | rfl⟩ := hw.2.2.2 hwait <;> simp
    · exact attends_of_not_wait hwait
  case waitScanSleep p q addr i hi hq =>
    obtain rfl := hself p q hw hq
    intro _
    rw [Attends, if_pos rfl]
    intro p' c lk k' he
    cases he
    exact ha rfl
  case waitScanNo p addr i hi hc hne => exact ha
  case waitCheckNo p addr i hne =>
    rw [Attends, if_neg (by simp)]
    exact fun _ => ⟨i, hchild i p rfl⟩
  all_goals simp [failFork, reap]

/-- After a slot change there is nothing to know. -/
theorem Update.attends {pc k : Pc} {i : Slot} {q : Proc} {t : Option Slot}
    (hu : Update s h pc i q k) (hw : pc.Wf t) : Attends s' k := by
  cases hu with
  | release _ r k hl =>
      cases r with
      | wait p => obtain ⟨v, rfl⟩ := hw.2; simp
      | kexit p => obtain ⟨st, g, rfl⟩ := hw.2; simp
      | sched => obtain rfl := hw.2; simp
      | fail p => obtain rfl := hw.2; simp
  | awake p lk k =>
      obtain ⟨-, c, hs⟩ := hw
      obtain ⟨-, rfl, a, rfl⟩ | ⟨-, rfl, m, st, rfl⟩ := hs <;> simp
  | _ => simp

/-- A sleeper that a hart executes has not left it yet. -/
theorem Asleep.eq_sleepSet (hi : Inv s) {p : Slot} {c : Chan} (hd : Asleep c s p)
    (hu : s.cur h = some p) (hp : (s.pcOf h).plain) : ∃ lk k, s.pcOf h = .sleepSet p c lk k := by
  rcases hd with ⟨hst, -⟩ | ⟨h', lk, k, hk⟩
  · rw [hi.running_of_plain hu hp] at hst
    cases hst
  · have hw := hi.wf h'
    rw [hk] at hw
    obtain rfl := hi.cur_inj hu hw.1
    exact ⟨lk, k, hk⟩

/-- Nobody takes its children from a process that is asleep in `wait`. -/
theorem Family.hasChild_step (hf : Family s) (hi : Inv s) (hs : Step s h s') {p : Slot}
    (hd : Dozing s p) (hc : HasChild s p) : HasChild s' p := by
  obtain ⟨q, hq⟩ := hc
  refine ⟨q, ?_⟩
  have hchild := hf.child h q
  have horphan := hf.orphan h q
  have hnew := fun b hb => (hi.claim_own (h := h) (i := q) (b := b) hb).1
  have hfresh : (s.procs q).state ≠ .new := fun hst => by
    rw [hf.fresh q (by simp [hst, ProcState.Alive])] at hq
    cases hq
  have hwf := hi.wf h
  have hown : s.cur h = some p → (s.pcOf h).plain → ∃ lk k, s.pcOf h = .sleepSet p (.proc p) lk k :=
    fun hu hp => Asleep.eq_sleepSet hi hd hu hp
  -- whoever takes a child away is its parent, and not asleep
  have hmine : ∀ p', (s.pcOf h).child = some (q, p') → s.cur h = some p' → (s.pcOf h).plain → False := by
    intro p' hp' hu hplain
    obtain rfl := Option.some.inj (hq.symm.trans (hchild p' hp'))
    obtain ⟨lk, k, hk⟩ := hown hu hplain
    rw [hk] at hp'
    simp at hp'
  rcases hi.proc_step hs q with he | hu | ⟨-, -, he⟩
  · rw [he, hq]
  · generalize s.pcOf h = pc, s'.procs q = x, s'.pcOf h = k at hu hwf hchild horphan hnew hmine ⊢
    cases hu with
    | release _ r k hl =>
        cases r with
        | wait p' => exact (hmine p' rfl hwf.1.symm rfl).elim
        | kexit p' | sched =>
            rw [horphan rfl] at hq
            cases hq
        | fail p' => exact absurd (hnew false rfl) hfresh
    | publish p' => exact absurd (hnew true rfl) hfresh
    | handNone p' | handRelease p' | hand p' | handZombie p' => exact (hmine p' rfl hwf rfl).elim
    | _ => exact hq
  · rw [he]
    exact hq

theorem waiters_step (hi : Inv s) (hf : Family s) (ha : Waiters s) (hs : Step s h s') :
    Waiters s' := by
  constructor
  · intro h'
    by_cases hh : h' = h
    · subst hh
      obtain ⟨pc, procs, k, hpc, hprocs, hk, hm⟩ := hi.move hs
      have hw := hi.wf h'
      have hold := ha.attends h'
      have hkeep : s'.procs = s.procs → Attends s k → Attends s' k :=
        fun hp hak => hak.mono (by simp [HasChild, hp])
      rw [hk]
      cases hm with
      | silent hsil =>
          subst hpc
          exact hkeep hprocs (hsil.attends hi hf hold)
      | update hu =>
          subst hpc
          exact hu.attends hw
      | acq l k hl =>
          rw [hpc] at hw hold
          by_cases hl : l = .wait
          · obtain ⟨_, _, rfl⟩ | ⟨_, _, rfl⟩ | ⟨_, _, _, rfl⟩ := hw.2.2.2.2.1 hl <;> simp
          · exact hkeep hprocs (hold hl)
      | rel l k =>
          rw [hpc] at hw hold
          by_cases hl : l = .wait
          · subst hl
            exact attends_of_not_wait hw.2.1
          · rw [Attends, if_neg hl] at hold
            exact hkeep hprocs hold
      | enter i hwf hres => exact attends_of_not_wait (by simp [hres.locks hwf])
      | alloc | dispatch | leave | back => trivial
    · rw [hi.pcOf_step hs hh]
      by_cases hl : .wait ∈ (s.pcOf h').locks
      · have hl' : .wait ∉ (s.pcOf h).locks := fun hl' => hh (hi.lock_inj hl hl')
        exact (ha.attends h').mono fun p hc => by simpa [HasChild, hf.parent_step hi hs hl'] using hc
      · exact attends_of_not_wait hl
  · intro p hd
    rcases dozing_step hi hs hd with hd | ⟨c, lk, k, hrel, hk⟩
    · exact hf.hasChild_step hi hs hd (ha.child p hd)
    · have hold := ha.attends h
      rw [hrel, Attends, if_pos rfl] at hold
      obtain ⟨q, hq⟩ := hold p c lk k rfl
      obtain ⟨pc, procs, k', hpc, hprocs, -, hm⟩ := hi.move hs
      obtain rfl : pc = _ := hpc.symm.trans hrel
      cases hm with
      | silent | rel => exact ⟨q, by rw [hprocs]; exact hq⟩
      | update hu => cases hu
      | leave p hl _ => rcases hl with he | ⟨q, he, -⟩ <;> cases he

end Step

theorem waiters_reachable {s : State n} (hr : (system n).Reachable s) : Waiters s := by
  refine hr.invariant ?_ ?_
  · rintro _ rfl
    refine ⟨fun h => ?_, fun p hd => ?_⟩
    · simp [boot, State.pcOf]
    · simp only [Asleep, boot, State.pcOf] at hd
      grind
  · rintro s a s' hr ha ⟨hn, -⟩
    exact waiters_step (inv_reachable hr) (family_reachable hr) ha (next_step hn)

/-- **A process asleep in `wait` has somebody to wait for.**  Whenever `wait_lock` is free, a
process that is WAITING in `wait` has a child that has not exited: the child's own `kexit` is
still to come, and it wakes the parent. -/
theorem waiter_has_child {s : State n} (hr : (system n).Reachable s) (hw : s.locks .wait = none)
    {p : Slot} (hs : (s.procs p).state = .waiting) (hc : (s.procs p).chan = some (.proc p)) :
    ∃ q, (s.procs q).parent = some p ∧ ((s.procs q).state = .ready ∨
      (s.procs q).state = .running ∨ (s.procs q).state = .waiting) := by
  have hi := inv_reachable hr
  have hd : Dozing s p := .inl ⟨hs, hc⟩
  obtain ⟨q, hq⟩ := (waiters_reachable hr).child p hd
  have halive := (family_reachable hr).alive hq
  have hz : (s.procs q).state ≠ .zombie := by
    intro hz
    obtain ⟨h, hk⟩ := (wakeup_reachable hr).pending p q hd ⟨hq, hz⟩
    rw [(hi.lock h .wait).2 (Pc.wait_mem_locks_of_wakes (hi.wf h) hk)] at hw
    cases hw
  refine ⟨q, hq, ?_⟩
  cases hst : (s.procs q).state with
  | ready | running | waiting => simp
  | unused => exact absurd hst halive.1
  | new => exact absurd hst halive.2
  | zombie => exact absurd hst hz

/-- `init` forks and goes to sleep in `wait`; the child is still to run. -/
theorem waiter_has_child_forked : ∃ s : State 1, (system 1).Reachable s ∧ s.locks .wait = none ∧
    (s.procs 0).state = .waiting ∧ ∃ q, (s.procs q).parent = some 0 ∧
      ((s.procs q).state = .ready ∨ (s.procs q).state = .running ∨ (s.procs q).state = .waiting) := by
  have hrun : (run (boot 1) (goes 0 9 ++ [(0, .fork)] ++ goes 0 24 ++ [(0, .wait 0)] ++
      goes 0 40)).map (fun s => (s.locks .wait, (s.procs 0).state, (s.procs 0).chan)) =
      some (none, .waiting, some (.proc 0)) := by
    decide +kernel
  obtain ⟨s, hs, he⟩ := Option.map_eq_some_iff.1 hrun
  simp only [Prod.mk.injEq] at he
  obtain ⟨hl, hst, hc⟩ := he
  have hr := reachable_run (.start rfl) hs
  exact ⟨s, hr, hl, hst, waiter_has_child hr hl hst hc⟩

end Wl00.Sched
