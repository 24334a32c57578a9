import Wl00.Sched.Preserve

/-!
# The interrupt bit and the nesting of locks

`depth` and `intena` belong to the hart, while the nesting they describe belongs to the
thread: `sched` takes `intena` along when its thread leaves the hart, and puts it back on
the hart the thread resumes on.  Here `lock` and `unlock` are single steps;
`Wl00.Sched.Fine` opens them.

* `noteFirst` — a history variable: the SIE bit at the time a thread took the first of its
  locks.
* `firsts_reachable` — in every run, `intena` of a hart whose thread holds locks is that bit.
-/

namespace Wl00.Sched

variable {n : Nat}

/-- A kernel thread: the scheduler of a hart, or the thread of a process. -/
inductive Thread (n : Nat) where
  | sched (h : Fin n)
  | proc (p : Slot)
  deriving DecidableEq

/-- The thread hart `h` executes. -/
def State.thread (s : State n) (h : Fin n) : Thread n :=
  match s.cur h with
  | none => .sched h
  | some p => .proc p

/-- How a thread came to its locks: the SIE bit when it took the first of them, and whether
it has called `swtch` since. -/
structure First where
  sie : Bool
  switched : Bool
  deriving DecidableEq

/-- What becomes of the history in a step.  A thread that holds no lock takes its first
with `lock`; the thread that `procalloc` prepares has not taken any. -/
def noteFirst (s : State n) (a : Label n) (g : Thread n → Option First) : Thread n → Option First :=
  if a.choice = .timer then g else
  match s.pcOf a.hart with
  | .acq _ _ =>
      if (s.cpus a.hart).depth = 0 then
        Function.update g (s.thread a.hart) (some ⟨(s.cpus a.hart).sie, false⟩)
      else g
  | .paAlloc _ i => Function.update g (.proc i) none
  | .schedSwtch _ | .sched _ | .exitSched _ =>
      Function.update g (s.thread a.hart) ((g (s.thread a.hart)).map ({ · with switched := true }))
  | _ => g

/-! ## Where a thread resumes -/

namespace Pc

/-- Nothing that `swtch` resumes lies underneath. -/
@[simp] def noRet : Pc → Prop
  | .sched _ | .schedRet _ _ | .forkret _ => False
  | .acq _ k | .rel _ k | .mm k | .trapYield _ k | .sret k | .wakeup _ _ k | .clockTick k
  | .wakeCheck _ _ k | .yieldSet _ k | .sleepSet _ _ _ k | .sleepWake _ _ k
  | .release _ _ k => noRet k
  | _ => True

/-- A thread calls `swtch` in `sched` only, and from there on it goes through no other call
of `sched` that it has yet to return from. -/
@[simp] def Flat : Pc → Prop
  | .sched k | .schedRet _ k => k.noRet
  | .forkret _ => True
  | k => k.noRet

theorem noRet.flat {pc : Pc} (hf : pc.noRet) : pc.Flat := by
  cases pc <;> simp_all

/-- `swtch` is called and resumed with a lock held. -/
theorem Flat.noRet {pc : Pc} {t : Option Slot} (hf : pc.Flat) (hw : pc.Wf t) (hl : pc.locks = ∅) :
    pc.noRet := by
  cases pc
  case sched k | schedRet ia k =>
    obtain ⟨-, -, -, -, p, -, he⟩ := hw
    exact absurd (hl.symm.trans he) (Finset.singleton_ne_empty _).symm
  all_goals simp_all

theorem noRet_of_wf_none {pc : Pc} (hw : pc.Wf none) : pc.noRet := by
  induction pc with
  | release q r k ih =>
      obtain ⟨hr, hk⟩ := hw
      exact ih (hr ▸ hk.spec.1)
  | _ => simp_all

end Pc

theorem Silent.noRet {s : State n} {h : Fin n} {pc k : Pc} (hk : Silent s h pc k) (hf : pc.Flat)
    (hs : (s.cpus h).sie = true → pc.noRet) : k.noRet := by
  cases hk
  case timerUser | timerKernel =>
    unfold clockintr
    split <;> simp_all
  all_goals
    clear hs
    simp_all [failFork, reap]

theorem Update.flat {s : State n} {h : Fin n} {pc k : Pc} {i : Slot} {q : Proc}
    (hu : Update s h pc i q k) (hf : pc.Flat) : k.noRet ∨ ∃ k', k = .sched k' ∧ k'.noRet := by
  cases hu <;> simp_all

/-- A move of a thread leads to no point that `swtch` resumes, unless it calls `swtch`. -/
theorem ThreadMove.flat {s : State n} {h : Fin n} {pc k : Pc} {procs : Slot → Proc}
    (hm : ThreadMove s h pc procs k) (hf : pc.Flat) (hs : (s.cpus h).sie = true → pc.noRet) :
    k.noRet ∨ (∃ k', k = .sched k' ∧ k'.noRet) ∨
      ∃ ia k', k = .schedRet ia k' ∧ k'.noRet ∧ Leaves pc k' := by
  cases hm with
  | silent hk => exact .inl (hk.noRet hf hs)
  | update i q hu => exact (hu.flat hf).imp_right .inl
  | acq l k | rel l k => exact .inl hf
  | alloc p i => exact .inl trivial
  | leave ia hl =>
      refine .inr (.inr ⟨ia, _, rfl, ?_, hl⟩)
      rcases hl with rfl | ⟨p, rfl, rfl⟩
      · exact hf
      · trivial

/-! ## What a step does to a hart's bookkeeping -/

theorem next_of_ne_timer {s : State n} {h : Fin n} {c : Choice} (hc : c ≠ .timer) :
    next s h c = go s h c := by
  unfold next
  split
  · exact absurd rfl hc
  · rfl

theorem Step.cpus_ne {s s' : State n} {h h' : Fin n} (hs : Step s h s') (hh : h' ≠ h) :
    s'.cpus h' = s.cpus h' := by
  cases hs <;> simp [State.setCpu, State.setProc, State.setLock, State.setCproc, hh]

theorem Step.cur_ne {s s' : State n} {h h' : Fin n} (hs : Step s h s') (hh : h' ≠ h) :
    s'.cur h' = s.cur h' := by
  cases hs <;> simp [State.setCpu, State.setProc, State.setLock, State.setCproc, hh]

section Cpus

variable (s : State n) (h : Fin n) (k : Pc)

@[simp] theorem cpus_sched : (sched s h k).cpus = s.cpus := by
  unfold sched
  split
  · simp
  · split_ifs <;> simp

@[simp] theorem cpus_yield : (yield s h k).cpus = s.cpus := by
  unfold yield
  split <;> simp

@[simp] theorem cpus_sleep (c : Chan) (lk : Lock) : (sleep s h c lk k).cpus = s.cpus := by
  unfold sleep
  split <;> simp

theorem intena_unlock (l : Lock) :
    ((unlock s h l k).cpus h).intena = (s.cpus h).intena := by
  unfold unlock Spinlock.popOff
  split_ifs <;> simp [State.setCpu]

theorem intena_trap {s s' : State n} {h : Fin n} {c : Choice} (ht : trap s h c = some s') :
    (s'.cpus h).intena = (s.cpus h).intena := by
  unfold trap at ht
  (repeat' split at ht) <;> cases ht <;> simp [State.setSie, State.setCpu]

end Cpus

/-- `intena` changes in `lock`, and where a thread resumes. -/
theorem go_intena {s s' : State n} {h : Fin n} {c : Choice} (hg : go s h c = some s')
    (ha : ∀ l k, s.pcOf h ≠ .acq l k) (hr : ∀ ia k, s.pcOf h ≠ .schedRet ia k) :
    (s'.cpus h).intena = (s.cpus h).intena := by
  cases hp : s.pcOf h <;> simp only [go, hp] at hg
  case acq l k => exact absurd hp (ha l k)
  case schedRet ia k => exact absurd hp (hr ia k)
  case rel l k =>
    obtain rfl := Option.some.inj hg
    exact intena_unlock s h k l
  case user => exact intena_trap hg
  all_goals
    (repeat' split at hg) <;> cases hg <;>
      simp [State.setSie, State.setCpu, State.setProc, State.setCproc]

theorem go_intena_schedRet {s s' : State n} {h : Fin n} {c : Choice} {ia : Bool} {k : Pc}
    (hg : go s h c = some s') (hp : s.pcOf h = .schedRet ia k) : (s'.cpus h).intena = ia := by
  simp only [go, hp] at hg
  obtain rfl := Option.some.inj hg
  simp [State.setCpu]

/-- A timer interrupt is a silent step to a point without locks. -/
theorem Inv.timer_silent {s s' : State n} {h : Fin n} (hi : Inv s) (ht : timer s h = some s') :
    ∃ k, Silent s h (s.pcOf h) k ∧ s' = (s.setSie h false).setPc h k ∧ k.locks = ∅ := by
  have key : ∀ k, Silent s h (s.pcOf h) k → (s.cpus h).sie = true → k.locks = ∅ := by
    intro k hk hs
    rw [(hi.sameFrame hk).locks, hi.locks_eq_empty hs]
  unfold timer at ht
  split at ht
  · next hs =>
    split at ht
    · next hp =>
      have hw := hi.wf h
      rw [hp] at hw
      obtain ⟨p, hu⟩ := Option.ne_none_iff_exists'.1 hw
      have hc := (hi.cur h p hu).2
      rw [hc] at ht
      cases ht
      have hk := Silent.timerUser p hs hc
      rw [← hp] at hk
      exact ⟨_, hk, rfl, key _ hk hs⟩
    · next hp =>
      cases ht
      have hk := Silent.timerKernel (s := s) (h := h) _ hs hp
      exact ⟨_, hk, rfl, key _ hk hs⟩
  · cases ht

/-! ## The history -/

/-- What the history says about hart `h`. -/
structure HartOk (s : State n) (g : Thread n → Option First) (h : Fin n) : Prop where
  /-- `intena` is the bit that the thread found.  A scheduler that has been away has
  `intena` from the process it ran. -/
  run : ∀ x, (s.pcOf h).locks ≠ ∅ → (∀ ia k, s.pcOf h ≠ .schedRet ia k) →
    g (s.thread h) = some x → (s.cur h = none → x.switched = false) → (s.cpus h).intena = x.sie
  /-- The thread has taken the locks it holds, except for the one that `forkret` finds. -/
  own : (s.pcOf h).locks ≠ ∅ → g (s.thread h) = none →
    ∃ p, s.cur h = some p ∧ (s.pcOf h = .forkret p ∨ s.pcOf h = .rel (.proc p) .utrapret)
  away : ∀ p, s.cur h = some p → ∃ x, g (.sched h) = some x ∧ x.switched = true

/-- What it says about the thread of slot `p`. -/
structure SlotOk (s : State n) (g : Thread n → Option First) (p : Slot) : Prop where
  flat : (s.tpc p).Flat
  /-- A thread that has left its hart has `intena` with it. -/
  off : ∀ ia k, (s.procs p).state.Alive → s.tpc p = .schedRet ia k →
    ∃ x, g (.proc p) = some x ∧ x.sie = ia
  fork : s.tpc p = .forkret p → g (.proc p) = none

structure Firsts (s : State n) (g : Thread n → Option First) : Prop where
  hart : ∀ h, HartOk s g h
  slot : ∀ p, SlotOk s g p

section Note

variable {s : State n} {a : Label n} {g : Thread n → Option First}

theorem State.thread_none {h : Fin n} (hu : s.cur h = none) : s.thread h = .sched h := by
  rw [State.thread, hu]

theorem State.thread_some {h : Fin n} {p : Slot} (hu : s.cur h = some p) : s.thread h = .proc p := by
  rw [State.thread, hu]

/-- Different harts execute different threads. -/
theorem RunInv.thread_ne (hi : RunInv s) {h h' : Fin n} (hh : h' ≠ h) : s.thread h' ≠ s.thread h := by
  intro he
  unfold State.thread at he
  split at he <;> split at he <;> cases he
  · exact hh rfl
  · next hu p hu' => exact hh (hi.cur_inj ‹_› ‹_›)

/-- The history of a thread changes in its own steps, and when `procalloc` prepares it. -/
theorem noteFirst_ne {t : Thread n} (ht : t ≠ s.thread a.hart)
    (hp : ∀ p i, s.pcOf a.hart = .paAlloc p i → t ≠ .proc i) : noteFirst s a g t = g t := by
  unfold noteFirst
  by_cases hc : a.choice = .timer
  · rw [if_pos hc]
  · rw [if_neg hc]
    cases hpc : s.pcOf a.hart
    case acq =>
      dsimp only
      split_ifs
      · exact Function.update_of_ne ht _ _
      · rfl
    case paAlloc p i => exact Function.update_of_ne (hp p i hpc) _ _
    case schedSwtch | sched | exitSched => exact Function.update_of_ne ht _ _
    all_goals rfl

/-- Outside of `lock`, what happens to the history of a thread does not depend on anything
else. -/
theorem noteFirst_congr {s' : State n} {a' : Label n} {g' : Thread n → Option First} {t : Thread n}
    (hacq : ∀ l k, s.pcOf a.hart ≠ .acq l k) (hh : a'.hart = a.hart) (hc : a'.choice = a.choice)
    (hpc : s'.pcOf a.hart = s.pcOf a.hart) (hth : s'.thread a.hart = s.thread a.hart)
    (ht : g' t = g t) : noteFirst s' a' g' t = noteFirst s a g t := by
  have hup : ∀ x v w, (t = x → v = w) → Function.update g' x v t = Function.update g x w t := by
    intro x v w hv
    rw [Function.update_apply, Function.update_apply]
    split
    · next he => exact hv he
    · exact ht
  unfold noteFirst
  rw [hh, hc, hpc, hth]
  by_cases htm : a.choice = .timer
  · rw [if_pos htm, if_pos htm, ht]
  · rw [if_neg htm, if_neg htm]
    cases hp : s.pcOf a.hart
    case acq l k => exact absurd hp (hacq l k)
    case paAlloc p i => exact hup _ _ _ fun _ => rfl
    case schedSwtch | sched | exitSched => exact hup _ _ _ fun he => by rw [← he, ht]
    all_goals exact ht

/-- The history does not change in a silent step with interrupts off. -/
theorem Silent.noteFirst_eq {k : Pc} (hk : Silent s a.hart (s.pcOf a.hart) k)
    (hs : ¬(s.cpus a.hart).sie = true) (hp : ∀ p i, s.pcOf a.hart ≠ .paAlloc p i) :
    noteFirst s a g = g := by
  unfold noteFirst
  by_cases hc : a.choice = .timer
  · rw [if_pos hc]
  · rw [if_neg hc]
    generalize s.pcOf a.hart = pc at hk hp
    cases hk
    case timerUser hsie _ => exact absurd hsie hs
    case timerKernel hsie _ => exact absurd hsie hs
    case paAllocFail p i => exact absurd rfl (hp p i)
    all_goals rfl

theorem Update.noteFirst_eq {k : Pc} {i : Slot} {q : Proc} (hu : Update s a.hart (s.pcOf a.hart) i q k) :
    noteFirst s a g = g := by
  unfold noteFirst
  by_cases hc : a.choice = .timer
  · rw [if_pos hc]
  · rw [if_neg hc]
    generalize s.pcOf a.hart = pc at hu
    cases hu <;> rfl

end Note

/-! ## One step -/

namespace Firsts

variable {s s' : State n} {a : Label n} {g : Thread n → Option First}

theorem paAlloc_ne (hi : Inv s) {h h' : Fin n} {q i : Slot} (hp : s.pcOf h = .paAlloc q i) :
    s.thread h' ≠ .proc i := by
  obtain ⟨hnew, -⟩ := hi.claim_own (h := h) (i := i) (b := false) (by rw [hp]; rfl)
  intro he
  unfold State.thread at he
  split at he
  · cases he
  · next p hu =>
    cases he
    exact hi.not_cproc_of_new hnew h' (hi.cur h' _ hu).2

/-- A step of one hart is nothing to another. -/
theorem hart_ne (hf : Firsts s g) (hi : Inv s) (hs : Step s a.hart s') {h : Fin n}
    (hh : h ≠ a.hart) : HartOk s' (noteFirst s a g) h := by
  have hpc := hi.pcOf_step hs hh
  have hcur := hs.cur_ne hh
  have hth : s'.thread h = s.thread h := by rw [State.thread, State.thread, hcur]
  have hg : noteFirst s a g (s.thread h) = g (s.thread h) :=
    noteFirst_ne (hi.thread_ne hh) fun _ _ hp => paAlloc_ne hi hp
  have hgs : noteFirst s a g (.sched h) = g (.sched h) := by
    refine noteFirst_ne (fun he => ?_) fun _ _ _ he => by cases he
    unfold State.thread at he
    split at he <;> cases he
    exact hh rfl
  obtain ⟨h1, h2, h3⟩ := hf.hart h
  constructor
  · rw [hpc, hth, hg, hcur, hs.cpus_ne hh]
    exact h1
  · rw [hpc, hth, hg, hcur]
    exact h2
  · rw [hcur, hgs]
    exact h3

/-- A thread that is not executed does not change, unless `procalloc` prepares it. -/
theorem slot_ne (hf : Firsts s g) (hi : Inv s) (hs : Step s a.hart s') {p : Slot}
    (hu : s.cur a.hart ≠ some p) (ht : s'.tpc p = s.tpc p) : SlotOk s' (noteFirst s a g) p := by
  obtain ⟨h1, h2, h3⟩ := hf.slot p
  have hne : Thread.proc p ≠ s.thread a.hart := by
    unfold State.thread
    split
    · exact fun he => by cases he
    · next q hq => exact fun he => hu (by cases he; exact hq)
  by_cases hp : ∃ q, s.pcOf a.hart = .paAlloc q p
  · obtain ⟨q, hp⟩ := hp
    obtain ⟨hnew, -⟩ := hi.claim_own (h := a.hart) (i := p) (b := false) (by rw [hp]; rfl)
    refine ⟨ht ▸ h1, fun ia k hal _ => ?_, fun hk => ?_⟩
    · rcases hi.alive_step hs hal with hal | ⟨_, v, hpub⟩
      · exact absurd hnew hal.2
      · rw [hp] at hpub
        cases hpub
    · by_cases hc : a.choice = .timer
      · rw [noteFirst, if_pos hc]
        exact h3 (ht ▸ hk)
      · rw [noteFirst, if_neg hc, hp]
        exact Function.update_self ..
  · have hg : noteFirst s a g (.proc p) = g (.proc p) :=
      noteFirst_ne hne fun q i hq he => hp ⟨q, by cases he; exact hq⟩
    refine ⟨ht ▸ h1, fun ia k hal hk => ?_, fun hk => ?_⟩
    · rw [ht] at hk
      rcases hi.alive_step hs hal with hal | ⟨q, v, hpub⟩
      · rw [hg]
        exact h2 ia k hal hk
      · have := (hi.claim_own (h := a.hart) (i := p) (b := true) (by rw [hpub]; rfl)).2.1 rfl
        rw [this] at hk
        cases hk
    · rw [hg]
      exact h3 (ht ▸ hk)

/-- A thread at a point that `swtch` does not resume. -/
theorem slotOk_of_noRet {p : Slot} (hk : (s'.tpc p).noRet) : SlotOk s' g p := by
  refine ⟨hk.flat, fun ia k _ he => ?_, fun he => ?_⟩ <;>
  · rw [he] at hk
    exact hk.elim

theorem slotOk_setPc {h : Fin n} {p : Slot} {k : Pc} (hu : s.cur h = some p) (hk : k.noRet) :
    SlotOk (s.setPc h k) g p := by
  refine slotOk_of_noRet ?_
  rwa [State.tpc_setPc, if_pos hu]

theorem flat (hf : Firsts s g) (hi : Inv s) (h : Fin n) : (s.pcOf h).Flat := by
  cases hu : s.cur h with
  | none =>
      have hw := hi.wfS h
      rw [s.pcOf_none hu]
      exact (Pc.noRet_of_wf_none hw).flat
  | some p =>
      rw [s.pcOf_some hu]
      exact (hf.slot p).flat

theorem noRet_of_sie (hf : Firsts s g) (hi : Inv s) {h : Fin n} (hs : (s.cpus h).sie = true) :
    (s.pcOf h).noRet :=
  (hf.flat hi h).noRet (hi.wf h) (hi.locks_eq_empty hs)

/-- A hart without locks. -/
theorem hartOk_of_locks {h : Fin n} (hl : (s'.pcOf h).locks = ∅)
    (ha : ∀ p, s'.cur h = some p → ∃ x, g (.sched h) = some x ∧ x.switched = true) :
    HartOk s' g h :=
  ⟨fun _ hne => absurd hl hne, fun hne => absurd hl hne, ha⟩

/-- A thread goes on with `intena` and the history as they were. -/
theorem hartOk_of_eq {h : Fin n} (ho : HartOk s g h) (hcur : s'.cur h = s.cur h)
    (hl : (s'.pcOf h).locks ≠ ∅ → (s.pcOf h).locks ≠ ∅) (hr : ∀ ia k, s.pcOf h ≠ .schedRet ia k)
    (hint : (s'.cpus h).intena = (s.cpus h).intena)
    (hown : ∀ p, s.pcOf h = .forkret p ∨ s.pcOf h = .rel (.proc p) .utrapret →
      (s'.pcOf h).locks ≠ ∅ → s'.pcOf h = .rel (.proc p) .utrapret) : HartOk s' g h := by
  have hth : s'.thread h = s.thread h := by rw [State.thread, State.thread, hcur]
  refine ⟨fun x hne _ hx hsw => ?_, fun hne hx => ?_, ?_⟩
  · rw [hint]
    rw [hth] at hx
    rw [hcur] at hsw
    exact ho.run x (hl hne) hr hx hsw
  · rw [hth] at hx
    obtain ⟨p, hu, hp⟩ := ho.own (hl hne) hx
    exact ⟨p, hcur.trans hu, .inr (hown p hp hne)⟩
  · rw [hcur]
    exact ho.away

theorem step_timer (hf : Firsts s g) (hi : Inv s) (hc : a.choice = .timer)
    (hn : timer s a.hart = some s') : Firsts s' (noteFirst s a g) := by
  have hs := timer_step hn
  obtain ⟨k, hk, rfl, hl⟩ := hi.timer_silent hn
  have hg : noteFirst s a g = g := by rw [noteFirst, if_pos hc]
  have hno := hk.noRet (hf.flat hi a.hart) (hf.noRet_of_sie hi)
  refine ⟨fun h => ?_, fun p => ?_⟩
  · by_cases hh : h = a.hart
    · subst hh
      have hp : ((s.setSie a.hart false).setPc a.hart k).pcOf a.hart = k := State.pcOf_setPc_self ..
      refine ⟨fun x hne => absurd (by rw [hp]; exact hl) hne,
        fun hne => absurd (by rw [hp]; exact hl) hne, ?_⟩
      rw [hg, State.cur_setPc]
      exact (hf.hart a.hart).away
    · exact hf.hart_ne hi hs hh
  · by_cases hu : s.cur a.hart = some p
    · exact slotOk_setPc hu hno
    · exact hf.slot_ne hi hs hu ((State.tpc_setPc ..).trans (if_neg hu))

/-- While its hart executes a process, the history of a scheduler does not change. -/
theorem away (hf : Firsts s g) {p : Slot} (hu : s.cur a.hart = some p) :
    ∃ x, noteFirst s a g (.sched a.hart) = some x ∧ x.switched = true := by
  rw [noteFirst_ne (by rw [State.thread_some hu]; exact fun he => by cases he)
    fun _ _ _ he => by cases he]
  exact (hf.hart a.hart).away p hu

/-- A silent step of a thread that holds locks. -/
theorem hart_silent (hf : Firsts s g) (hi : Inv s) (hn : go s a.hart a.choice = some s') {k : Pc}
    (hk : Silent s a.hart (s.pcOf a.hart) k) (hpc : s'.pcOf a.hart = k)
    (hcur : s'.cur a.hart = s.cur a.hart) (hl : k.locks ≠ ∅) : HartOk s' (noteFirst s a g) a.hart := by
  have hw := hi.wf a.hart
  have ho := hf.hart a.hart
  have hne : (s.pcOf a.hart).locks ≠ ∅ := (hi.sameFrame hk).locks ▸ hl
  have hsie : ¬(s.cpus a.hart).sie = true := fun hs => hne (hi.locks_eq_empty hs)
  have hnote : noteFirst s a g = g := by
    refine hk.noteFirst_eq hsie fun p i hp => hne ?_
    rw [hp]
    rfl
  rw [hnote]
  cases hp : s.pcOf a.hart
  case schedRet ia k' =>
    -- the thread resumes, and puts back what it has brought along
    rw [hp] at hw
    obtain ⟨-, -, -, -, p, hu, -⟩ := hw
    have hth : s'.thread a.hart = .proc p := State.thread_some (hcur.trans hu)
    rw [s.pcOf_some hu] at hp
    obtain ⟨x, hx, hia⟩ := (hf.slot p).off ia k' (hi.on _ p hu).2 hp
    rw [← s.pcOf_some hu] at hp
    refine ⟨fun y _ _ hy _ => ?_, fun _ hnone => ?_, hcur ▸ ho.away⟩
    · rw [hth, hx] at hy
      rw [go_intena_schedRet hn hp, ← hia, Option.some.inj hy]
    · rw [hth, hx] at hnone
      cases hnone
  all_goals
    refine hartOk_of_eq ho hcur (fun _ => hne) (by rw [hp]; exact fun _ _ he => by cases he)
      (go_intena hn ?_ (by rw [hp]; exact fun _ _ he => by cases he)) ?_
  case acq.refine_1 | acq.refine_2 | rel.refine_2 =>
    rw [hp] at hk
    cases hk with
    | timerKernel _ hs _ => exact absurd hs hsie
  case forkret.refine_2 q =>
    rw [hp] at hk hw
    intro p he _
    obtain rfl : q = p := by simpa [hp] using he
    cases hk with
    | timerKernel _ hs _ => exact absurd hs hsie
    | forkret _ r hr =>
        rw [(hi.cur _ q hw).2] at hr
        cases hr
        exact hpc
  all_goals
    rw [hp]
    simp

theorem hart_acq (hf : Firsts s g) (hi : Inv s) (hc : a.choice ≠ .timer) {l : Lock} {k : Pc}
    (hp : s.pcOf a.hart = .acq l k) :
    HartOk (((s.setLock l (some a.hart)).setCpu a.hart (Spinlock.pushOff (s.cpus a.hart))).setPc a.hart k)
      (noteFirst s a g) a.hart := by
  have ho := hf.hart a.hart
  have haway := fun p => hf.away (a := a) (p := p)
  have hd := hi.depth a.hart
  rw [noteFirst, if_neg hc, hp] at haway ⊢
  dsimp only at haway ⊢
  by_cases h0 : (s.cpus a.hart).depth = 0
  · rw [if_pos h0] at haway ⊢
    have hth : (State.setPc (State.setCpu (s.setLock l (some a.hart)) a.hart
        (Spinlock.pushOff (s.cpus a.hart))) a.hart k).thread a.hart = s.thread a.hart := by
      simp [State.thread, State.setCpu, State.setLock]
    refine ⟨fun x _ _ hx _ => ?_, fun _ hx => ?_, fun p hu => haway p ?_⟩
    · rw [hth, Function.update_self] at hx
      obtain rfl := Option.some.inj hx
      simp [State.setCpu, Spinlock.pushOff, h0]
    · rw [hth, Function.update_self] at hx
      cases hx
    · rwa [State.cur_setPc] at hu
  · rw [if_neg h0]
    refine hartOk_of_eq ho (congrFun (State.cur_setPc ..) _) (fun _ he => h0 ?_) (by simp [hp]) ?_
      (by simp [hp])
    · rw [hd, he]
      rfl
    · simp [State.setCpu, Spinlock.pushOff, h0]

/-- A scheduler hands its hart to a process. -/
theorem hart_enter (hf : Firsts s g) (hi : Inv s) (hc : a.choice ≠ .timer) {i : Slot}
    (hp : s.pcOf a.hart = .schedSwtch i) : HartOk { s with
      spc := Function.update s.spc a.hart (.schedBack i)
      cur := Function.update s.cur a.hart (some i) } (noteFirst s a g) a.hart := by
  have ho := hf.hart a.hart
  have hu := Inv.cur_eq_none hi.toRunInv hp fun _ => id
  have hth := State.thread_none hu
  obtain ⟨x, hx⟩ : ∃ x, g (.sched a.hart) = some x := by
    rw [← hth]
    refine Option.ne_none_iff_exists'.1 fun hnone => ?_
    obtain ⟨p, hu', -⟩ := ho.own (by simp [hp]) hnone
    rw [hu] at hu'
    cases hu'
  have hg : noteFirst s a g (.proc i) = g (.proc i) :=
    noteFirst_ne (by rw [hth]; exact fun he => by cases he)
      fun _ _ hq => by rw [hp] at hq; cases hq
  have hgs : noteFirst s a g (.sched a.hart) = some { x with switched := true } := by
    rw [noteFirst, if_neg hc, hp]
    dsimp only
    rw [hth, Function.update_self, hx]
    rfl
  rw [s.pcOf_none hu] at hp
  obtain ⟨hrun, hres⟩ := hi.swtch a.hart i hu hp
  have hpc := Inv.pcOf_enter s a.hart i (.schedBack i)
  have hcur : ({ s with
      spc := Function.update s.spc a.hart (.schedBack i)
      cur := Function.update s.cur a.hart (some i) } : State n).cur a.hart = some i :=
    Function.update_self ..
  have hth' := State.thread_some hcur
  refine ⟨fun y _ hne hy _ => ?_, fun _ hnone => ⟨i, hcur, .inl ?_⟩, fun p _ => ⟨_, hgs, rfl⟩⟩
  · rw [hth', hg] at hy
    rcases hres with hfr | ⟨ia, k, hr⟩
    · rw [(hf.slot i).fork hfr] at hy
      cases hy
    · exact absurd (hpc.trans hr) (hne ia k)
  · rw [hth', hg] at hnone
    rcases hres with hfr | ⟨ia, k, hr⟩
    · exact hpc.trans hfr
    · obtain ⟨y, hy, -⟩ := (hf.slot i).off ia k (by simp [hrun, ProcState.Alive]) hr
      rw [hy] at hnone
      cases hnone

/-- A process gives its hart back. -/
theorem hart_leave (hf : Firsts s g) (hi : Inv s) {p : Slot} {k : Pc}
    (hl : Leaves (s.pcOf a.hart) k) : HartOk { s with
      tpc := Function.update s.tpc p (.schedRet (s.cpus a.hart).intena k)
      cur := Function.update s.cur a.hart none } (noteFirst s a g) a.hart := by
  obtain ⟨q, hu, -⟩ := hl.locks (hi.wf a.hart)
  obtain ⟨x, hx, hsw⟩ := hf.away hu
  have hcur : ({ s with
      tpc := Function.update s.tpc p (.schedRet (s.cpus a.hart).intena k)
      cur := Function.update s.cur a.hart none } : State n).cur a.hart = none :=
    Function.update_self ..
  have hth := State.thread_none hcur
  refine ⟨fun y _ _ hy h0 => ?_, fun _ hnone => ?_, fun r hr => ?_⟩
  · rw [hth, hx] at hy
    obtain rfl := Option.some.inj hy
    rw [h0 hcur] at hsw
    cases hsw
  · rw [hth, hx] at hnone
    cases hnone
  · rw [hcur] at hr
    cases hr

theorem hart_go (hf : Firsts s g) (hi : Inv s) (hc : a.choice ≠ .timer)
    (hn : go s a.hart a.choice = some s') : HartOk s' (noteFirst s a g) a.hart := by
  have hs := go_step hn
  have hw := hi.wf a.hart
  have ho := hf.hart a.hart
  cases hs with
  | @silent k c pid t hk hd _ _ =>
      by_cases hl : k.locks = ∅
      · exact hartOk_of_locks ((congrArg Pc.locks (State.pcOf_setPc_self ..)).trans hl)
          (by rw [State.cur_setPc]; exact fun p => hf.away)
      · exact hf.hart_silent hi hn hk (State.pcOf_setPc_self ..) (congrFun (State.cur_setPc ..) _) hl
  | @update i q k hu =>
      rw [hu.noteFirst_eq]
      refine hartOk_of_eq ho (congrFun (State.cur_setPc ..) _) ?_ ?_ (by simp [State.setProc]) ?_
      · rw [State.pcOf_setPc_self, hu.locks_eq hw]
        exact id
      · generalize s.pcOf a.hart = pc at hu
        cases hu <;> simp
      · generalize s.pcOf a.hart = pc at hu
        cases hu <;> simp
  | @acq l k hp hl =>
      exact hf.hart_acq hi hc hp
  | @rel l k c hp hl hpop =>
      rw [noteFirst, if_neg hc, hp]
      refine hartOk_of_eq ho (congrFun (State.cur_setPc ..) _) (by simp [hp]) (by simp [hp]) ?_ ?_
      · exact go_intena hn (by simp [hp]) (by simp [hp])
      · intro p he hne
        obtain ⟨rfl, rfl⟩ : l = .proc p ∧ k = .utrapret := by simpa [hp] using he
        exact absurd (congrArg Pc.locks (State.pcOf_setPc_self ..)) hne
  | @alloc p i hp => exact hartOk_of_locks (by simp) (by simpa using fun p => hf.away)
  | @dispatch i hp hst =>
      rw [noteFirst, if_neg hc, hp]
      refine hartOk_of_eq ho ?_ ?_ ?_ ?_ ?_ <;> simp [State.setCproc, State.setProc, hp]
  | enter hp => exact hf.hart_enter hi hc hp
  | leave hl _ _ => exact hf.hart_leave hi hl
  | @back i hp =>
      rw [noteFirst, if_neg hc, hp]
      refine hartOk_of_eq ho ?_ ?_ ?_ ?_ ?_ <;> simp [State.setCproc, hp]
  | panic hp => exact absurd hp hi.not_panics

/-- A process leaves with `intena` as it found SIE when it took the first of its locks. -/
theorem slot_leave (hf : Firsts s g) (hi : Inv s) (hc : a.choice ≠ .timer) {p : Slot} {k : Pc}
    (hu : s.cur a.hart = some p) (hl : Leaves (s.pcOf a.hart) k)
    (ht : s'.tpc p = .schedRet (s.cpus a.hart).intena k) : SlotOk s' (noteFirst s a g) p := by
  have hw := hi.wf a.hart
  have hfl := hf.flat hi a.hart
  obtain ⟨hrun, hown, -⟩ := hf.hart a.hart
  obtain ⟨q, -, hlocks⟩ := hl.locks hw
  have hne : (s.pcOf a.hart).locks ≠ ∅ := hlocks ▸ Finset.singleton_ne_empty _
  have hth := State.thread_some hu
  obtain ⟨x, hx⟩ : ∃ x, g (.proc p) = some x := by
    rw [← hth]
    refine Option.ne_none_iff_exists'.1 fun hnone => ?_
    obtain ⟨r, -, hp⟩ := hown hne hnone
    rcases hl with he | ⟨_, he, -⟩ <;> simp [he] at hp
  have hia : (s.cpus a.hart).intena = x.sie := by
    refine hrun x hne (fun ia k' he => ?_) (hth ▸ hx) fun hu' => ?_
    · rcases hl with he' | ⟨_, he', -⟩ <;> simp [he'] at he
    · rw [hu] at hu'
      cases hu'
  have hg : noteFirst s a g (.proc p) = some { x with switched := true } := by
    rw [noteFirst, if_neg hc]
    rcases hl with he | ⟨_, he, -⟩ <;> rw [he] <;> dsimp only <;>
      rw [hth, Function.update_self, hx] <;> rfl
  refine ⟨?_, fun ia k' _ he => ⟨_, hg, ?_⟩, fun he => ?_⟩
  · rw [ht]
    rcases hl with he | ⟨_, he, rfl⟩
    · rw [he] at hfl
      exact hfl
    · trivial
  · rw [ht] at he
    cases he
    exact hia.symm
  · rw [ht] at he
    cases he

/-- A process goes on. -/
theorem slot_self (hf : Firsts s g) (hi : Inv s) (hc : a.choice ≠ .timer)
    (hs : Step s a.hart s') {p : Slot} (hu : s.cur a.hart = some p) :
    SlotOk s' (noteFirst s a g) p := by
  have hfl := hf.flat hi a.hart
  cases hs with
  | silent hk _ _ _ => exact slotOk_setPc hu (hk.noRet hfl (hf.noRet_of_sie hi))
  | @update i q k hup =>
      have ht : ((s.setProc i q).setPc a.hart k).tpc p = k := (State.tpc_setPc ..).trans (if_pos hu)
      rcases hup.flat hfl with hno | ⟨k', rfl, hno⟩
      · exact slotOk_setPc hu hno
      · refine ⟨ht.symm ▸ hno, fun ia k _ he => ?_, fun he => ?_⟩ <;>
        · rw [ht] at he
          cases he
  | acq hp _ | rel hp _ _ =>
      rw [hp] at hfl
      exact slotOk_setPc hu hfl
  | alloc hp => exact slotOk_setPc hu trivial
  | enter hp | dispatch hp _ | back hp =>
      rw [Inv.cur_eq_none hi.toRunInv hp fun _ => id] at hu
      cases hu
  | @leave q k hl hcp _ =>
      obtain rfl : p = q := Option.some.inj ((hi.cur _ p hu).2.symm.trans hcp)
      exact hf.slot_leave hi hc hu hl (Function.update_self ..)
  | panic hp => exact absurd hp hi.not_panics

theorem slot_other (hf : Firsts s g) (hi : Inv s) (hc : a.choice ≠ .timer)
    (hs : Step s a.hart s') {p : Slot} (hu : s.cur a.hart ≠ some p) :
    SlotOk s' (noteFirst s a g) p := by
  rcases hi.tpc_step_other hs hu with ht | ⟨⟨q, hp⟩, ht⟩
  · exact hf.slot_ne hi hs hu ht
  · refine ⟨by rw [ht]; trivial, fun ia k _ he => ?_, fun _ => ?_⟩
    · rw [ht] at he
      cases he
    · rw [noteFirst, if_neg hc, hp]
      exact Function.update_self ..

theorem step (hf : Firsts s g) (hi : Inv s) (hn : next s a.hart a.choice = some s') :
    Firsts s' (noteFirst s a g) := by
  by_cases hc : a.choice = .timer
  · rw [hc] at hn
    exact hf.step_timer hi hc hn
  · have hg : go s a.hart a.choice = some s' := (next_of_ne_timer hc).symm.trans hn
    have hs := go_step hg
    refine ⟨fun h => ?_, fun p => ?_⟩
    · by_cases hh : h = a.hart
      · exact hh ▸ hf.hart_go hi hc hg
      · exact hf.hart_ne hi hs hh
    · by_cases hu : s.cur a.hart = some p
      · exact hf.slot_self hi hc hs hu
      · exact hf.slot_other hi hc hs hu

end Firsts

theorem firsts_boot : Firsts (boot n) fun _ => none := by
  refine ⟨fun h => ⟨?_, ?_, ?_⟩, fun p => ⟨trivial, ?_, fun _ => rfl⟩⟩ <;>
    simp [boot, State.pcOf]

/-- **`intena` is the SIE bit that the thread of the hart found when it took the first of
its locks**, in every run of any number of harts. -/
theorem firsts_reachable {s : State n} {g : Thread n → Option First}
    (hr : ((system n).watch (fun _ => none) noteFirst).Reachable (s, g)) : Firsts s g := by
  refine hr.invariant (I := fun x => Firsts x.1 x.2) ?_ ?_
  · rintro ⟨s, g⟩ ⟨rfl, rfl⟩
    exact firsts_boot
  · rintro ⟨s, g⟩ a ⟨s', g'⟩ hr hf ⟨⟨hn, -⟩, rfl⟩
    exact hf.step (inv_reachable hr.of_watch) hn

end Wl00.Sched
