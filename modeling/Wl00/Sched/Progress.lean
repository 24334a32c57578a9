import Mathlib.Data.DFinsupp.WellFounded
import Mathlib.Data.Prod.Lex
import Wl00.Sched.Handler
import Wl00.Sched.Lifecycle
import Wl00.Sched.Order
import Wl00.Sched.RoundRobin

/-!
# Every READY process can run

Nothing that the harts have done can leave the kernel stuck: in every reachable state the locks
can be given back, and then a hart of one's choice comes round to a READY process.

* `Pc.work`, `left` — what a hart has still to do before it looks at a slot again.
* `go_left`, `timer_left` — each step of a hart lowers it; in user mode the timer does.
* `drain` — the harts that hold locks can go on until nobody holds one.
* `ready_runs` — every READY process can be brought to run, on every hart.
-/

namespace Wl00.Sched

variable {n : Nat}

namespace Pc

/-- The steps in which a hart that is in user mode comes to `swtch` when it is interrupted. -/
abbrev toSwtch : Nat := 4 * NPROC + 7

/-- A bound on the steps from a point to user mode, to `swtch` or to the next slot that a
scheduler looks at.  What follows `swtch` does not count. -/
@[simp] def work : Pc → Nat
  | .acq _ k | .rel _ k | .mm k | .sret k | .schedRet _ k | .release _ _ k => work k + 1
  | .user => toSwtch
  | .utrapret => toSwtch + 1
  | .sysret _ _ _ => toSwtch + 2
  | .clockTick k => work k + 4 * NPROC + 3
  | .trapYield _ k | .sleepWake _ _ k => work k + 3
  | .wakeup _ i k => work k + 4 * (NPROC - i) + 1
  | .wakeCheck _ i k => work k + 4 * (NPROC - (i + 1)) + 3
  | .sched _ | .exitSched _ | .dead _ | .panic => 0
  | .yieldSet _ _ | .sleepSet _ _ _ _ => 1
  | .forkret _ => toSwtch + 3
  | .paScan _ i => toSwtch + 4 * (NPROC - i) + 20
  | .paCheck _ i => toSwtch + 4 * (NPROC - (i + 1)) + 22
  | .paPid _ _ => toSwtch + 15
  | .paSetPid _ _ _ => toSwtch + 13
  | .paAlloc _ _ => toSwtch + 11
  | .forkCopy _ _ => toSwtch + 9
  | .forkPid _ _ => toSwtch + 8
  | .forkPublish _ _ _ => toSwtch + 5
  | .waitScan _ _ i _ => toSwtch + 4 * (NPROC - i) + 10
  | .waitCheck _ _ i => toSwtch + 4 * (NPROC - (i + 1)) + 12
  | .waitCopyout _ _ _ _ _ => toSwtch + 6
  | .exitScan _ _ i => 2 * (NPROC - i) + 14 * NPROC + 20
  | .exitScanState _ _ i => 2 * (NPROC - (i + 1)) + 14 * NPROC + 21
  | .exitChildren _ _ _ i _ => 5 * (NPROC - i) + 8 * NPROC + 12
  | .exitHand _ _ _ i _ => 5 * (NPROC - (i + 1)) + 8 * NPROC + 15
  | .exitParent _ _ => 4 * NPROC + 8
  | .exitParentArg _ _ => 4 * NPROC + 6
  | .exitZombie _ _ => 2
  | .sleepStart _ _ => toSwtch + 6
  | .sleepLoop _ _ _ => toSwtch + 5
  | .schedOn => 4
  | .schedOff => 3
  | .schedScan i => if i < NPROC then 2 else 5
  | .schedCheck _ | .schedSwtch _ => 0
  | .schedBack i => if i + 1 < NPROC then 6 else 9
  | .schedReap i => if i + 1 < NPROC then 5 else 8

/-- A scheduler on its way to `swtch`. -/
@[simp] def stage : Pc → Nat
  | .acq _ k | .rel _ k | .mm k | .trapYield _ k | .sret k | .wakeup _ _ k | .sched k
  | .schedRet _ k | .clockTick k | .wakeCheck _ _ k | .yieldSet _ k | .sleepSet _ _ _ k
  | .sleepWake _ _ k | .release _ _ k => stage k
  | .schedSwtch _ => 2
  | _ => 0

end Pc

/-- Where hart `h` is between two slots: on its way to a process, on its stack, or back. -/
def stage (s : State n) (h : Fin n) : Nat :=
  if s.cur h = none then (s.spc h).stage else 1

/-- What hart `h` has still to do: the slots ahead, measured by `f`, the stage at the one it is
at, and the steps of that stage. -/
def left (f : Nat → Nat) (s : State n) (h : Fin n) : Nat ×ₗ Nat ×ₗ Nat :=
  toLex (f (s.spc h).scanned, toLex (stage s h, (s.pcOf h).work))

section Left

variable {f : Nat → Nat} {s s' s₁ : State n} {h : Fin n} {k : Pc}

theorem left_of_scanned (hf : f (s'.spc h).scanned < f (s.spc h).scanned) :
    left f s' h < left f s h :=
  Prod.Lex.toLex_lt_toLex.2 (.inl hf)

theorem left_of_stage (hf : f (s'.spc h).scanned = f (s.spc h).scanned)
    (hs : stage s' h < stage s h) : left f s' h < left f s h :=
  Prod.Lex.toLex_lt_toLex.2 (.inr ⟨hf, Prod.Lex.toLex_lt_toLex.2 (.inl hs)⟩)

theorem left_of_work (hf : f (s'.spc h).scanned = f (s.spc h).scanned)
    (hs : stage s' h = stage s h) (hw : (s'.pcOf h).work < (s.pcOf h).work) :
    left f s' h < left f s h :=
  Prod.Lex.toLex_lt_toLex.2 (.inr ⟨hf, Prod.Lex.toLex_lt_toLex.2 (.inr ⟨hs, hw⟩)⟩)

/-- The hart goes on to a point from which less is left. -/
theorem left_setPc (hspc : s₁.spc = s.spc) (hcur : s₁.cur = s.cur)
    (hf : f k.scanned = f (s.pcOf h).scanned) (hs : k.stage = (s.pcOf h).stage)
    (hw : k.work < (s.pcOf h).work) : left f (s₁.setPc h k) h < left f s h := by
  refine left_of_work ?_ ?_ (by rwa [State.pcOf_setPc_self])
  · rw [State.spc_setPc, hspc, hcur]
    split
    · next hc => rw [hf, s.pcOf_none hc.1]
    · rfl
  · rw [stage, stage, State.cur_setPc, State.spc_setPc, hspc, hcur]
    split
    · next hc => rw [if_pos ⟨hc, rfl⟩, hs, s.pcOf_none hc]
    · rfl

/-- A process that leaves by `swtch` is done with the slot. -/
theorem left_leave (hi : Inv s) (hl : Leaves (s.pcOf h) k) {c : Choice} (hg : go s h c = some s') :
    left f s' h < left f s h := by
  obtain ⟨p, hc, rfl⟩ := hi.go_leaves hl hg
  refine left_of_stage rfl ?_
  simp [stage, (hi.cur h p hc).1, hc]

/-- A scheduler that goes to a process is done with its own part. -/
theorem left_enter (hi : Inv s) {i : Slot} (hp : s.pcOf h = .schedSwtch i) {c : Choice}
    (hg : go s h c = some s') : left f s' h < left f s h := by
  have hc := Inv.cur_eq_none hi.toRunInv hp fun t ht => ht
  simp only [go, hp] at hg
  cases hg
  rw [s.pcOf_none hc] at hp
  exact left_of_stage (by simp [hp]) (by simp [stage, hc, hp])

/-- A scheduler that has looked at a slot has one less ahead. -/
theorem left_check (hi : Inv s) {i : Slot} (hp : s.pcOf h = .schedCheck i)
    (hlt : f (i + 1) < f i) {c : Choice} (hg : go s h c = some s') : left f s' h < left f s h := by
  have hc := Inv.cur_eq_none hi.toRunInv hp fun t ht => ht
  rw [s.pcOf_none hc] at hp
  apply left_of_scanned
  simp only [go, s.pcOf_none hc, hp] at hg
  split at hg <;> cases hg <;>
    simpa [State.spc_setPc, State.setCproc, State.setProc, hc, hp, Nat.min_eq_left i.isLt] using hlt

/-- `lock` and `unlock` succeed or panic. -/
theorem left_lock (hi : Inv s) {l : Lock} (hp : s.pcOf h = .acq l k ∨ s.pcOf h = .rel l k)
    {c : Choice} (hg : go s h c = some s') : left f s' h < left f s h := by
  have hpan := hi.not_panics (h := h)
  have hset : ∀ s₁ : State n, s₁.spc = s.spc → s₁.cur = s.cur →
      left f (s₁.setPc h k) h < left f s h := by
    intro s₁ hspc hcur
    rcases hp with hp | hp <;>
      exact left_setPc hspc hcur (by simp [hp]) (by simp [hp]) (by simp [hp])
  rcases hp with hp | hp <;> rw [hp] at hpan <;> simp only [go, hp, lock, unlock] at hg
  · split at hg
    · cases hg
      exact hset _ rfl rfl
    · next h' hl =>
      split at hg
      · next hh => exact absurd (.relock l k (hh ▸ hl)) hpan
      · cases hg
  · split at hg
    · next hl =>
      split at hg
      · cases hg
        exact hset _ rfl rfl
      · next m he => exact absurd (.pop l k m hl he) hpan
    · next hl => exact absurd (.unlock l k hl) hpan

/-- Each step of a hart in the kernel brings it nearer to the next slot. -/
theorem go_left (hi : Inv s) (hg : go s h .go = some s') (hu : s.pcOf h ≠ .user)
    (hoff : s.pcOf h = .schedOff → f 0 = f NPROC)
    (hchk : ∀ i : Slot, s.pcOf h = .schedCheck i → f (i + 1) < f i) :
    left f s' h < left f s h := by
  have hpan := hi.not_panics (h := h)
  have hw := hi.wf h
  cases hp : s.pcOf h
  case user => exact absurd hp hu
  case panic =>
    rw [hp] at hw
    exact hw.elim
  case dead p =>
    rw [hp] at hpan
    exact absurd (.dead p) hpan
  case schedSwtch i => exact left_enter hi hp hg
  case schedCheck i => exact left_check hi hp (hchk i hp) hg
  case sched k => exact left_leave hi (.inl hp) hg
  case exitSched p => exact left_leave hi (.inr ⟨p, hp, rfl⟩) hg
  case acq l k => exact left_lock hi (.inl hp) hg
  case rel l k => exact left_lock hi (.inr hp) hg
  case schedOff =>
    simp only [go, hp] at hg
    cases hg
    exact left_setPc rfl rfl (by simpa [hp] using hoff hp) (by simp [hp]) (by simp [hp])
  case schedBack i | schedReap i =>
    simp only [go, hp] at hg
    repeat' split at hg
    all_goals
      cases hg
      refine left_setPc rfl rfl ?_ ?_ ?_ <;> rw [hp]
      · simp only [Pc.scanned, Nat.min_eq_left (Nat.succ_le_of_lt i.isLt)]
      · rfl
      · simp only [Pc.work]
        split <;> omega
  case schedScan i =>
    simp only [go, hp] at hg
    split at hg <;> cases hg <;> refine left_setPc rfl rfl ?_ ?_ ?_ <;> rw [hp]
    all_goals simp_all [Nat.le_of_lt, Nat.not_lt_of_le]
  case release q r k =>
    rw [hp] at hpan
    have hl : s.locks (.proc q) = some h := by
      by_contra hl
      exact hpan (.release q r k hl)
    simp only [go, hp, if_pos hl, reduceCtorEq, if_false] at hg
    cases hg
    exact left_setPc rfl rfl (by rw [hp]; rfl) (by rw [hp]; rfl) (by simp [hp])
  case trapYield o k =>
    have hmove : ∀ k', k'.scanned = k.scanned → k'.stage = k.stage → k'.work ≤ k.work + 2 →
        left f (s.setPc h k') h < left f s h := by
      intro k' hf hst hwk
      exact left_setPc rfl rfl (by rw [hp, hf]; rfl) (by rw [hp, hst]; rfl) (by simp [hp]; omega)
    rw [hp] at hpan
    simp only [go, hp, yield] at hg
    split at hg
    · cases hg
      exact hmove _ rfl rfl (by simp)
    · next p =>
      split at hg
      · split at hg
        · next hc => exact absurd (.yield p k hc) hpan
        · cases hg
          exact hmove _ rfl rfl (by simp)
      · cases hg
        exact hmove _ rfl rfl (by simp)
  -- the other points stay on their stack; the invariant excludes a panic
  all_goals
    simp only [go, hp, sleep] at hg
    rw [hp] at hpan
    repeat' split at hg
    all_goals
      cases hg
      first
      | exact absurd (by constructor; assumption) hpan
      | refine left_setPc rfl rfl (by rw [hp]; rfl) (by rw [hp]; rfl) ?_
        simp only [hp, Pc.work, failFork, reap]
        omega

/-- In user mode a timer interrupt does. -/
theorem timer_left (hi : Inv s) (hp : s.pcOf h = .user) (ht : timer s h = some s') :
    left f s' h < left f s h := by
  have hpan := hi.not_panics (h := h)
  rw [hp] at hpan
  simp only [timer, hp, if_true] at ht
  split at ht
  · split at ht
    · next hc => exact absurd (.user hc) hpan
    · cases ht
      refine left_setPc rfl rfl ?_ ?_ ?_ <;> rw [hp]
      · rw [scanned_clockintr]
        rfl
      · unfold clockintr
        split <;> rfl
      · unfold clockintr
        split <;> simp only [Pc.work, Pc.toSwtch] <;> omega
  · cases ht

end Left

/-! ## A hart that is not kept waiting -/

/-- Interrupts are on in user mode. -/
theorem sie_of_user {s : State n} (hr : (system n).Reachable s) {h : Fin n}
    (hu : s.pcOf h = .user) : (s.cpus h).sie = true := by
  refine hr.invariant (I := fun s => ∀ h, s.pcOf h = .user → (s.cpus h).sie = true) ?_ ?_ h hu
  · rintro s rfl h hu
    cases hu
  · intro s a s' hr ih hs h hu
    have hi := inv_reachable hr
    have hn := hs.1
    by_cases hh : h = a.hart
    · subst hh
      -- user mode is entered at the end of `utrapret`
      by_cases hc : a.choice = .timer
      · rw [hc] at hn
        exact absurd hu (timer_ne_user hn)
      · have hg := hn
        rw [next_of_ne_timer hc] at hg
        have hth : s'.thread a.hart = s.thread a.hart := by
          apply thread_go hg
          · intro i hp
            exact (hi.thread_swtch hg (.inl ⟨i, hp⟩)).2 hu
          · intro k hl
            exact (hi.thread_swtch hg (.inr ⟨k, hl⟩)).2 hu
        have hp := user_entered hr hn hth hu
        simp only [go, hp] at hg
        cases hg
        simp [State.setSie, State.setCpu]
    · have hst := next_step hn
      rw [hi.pcOf_step hst hh] at hu
      rw [hst.cpus_ne hh]
      exact ih h hu

/-- A hart that does not spin on a lock can go on. -/
theorem exists_go {s : State n} (hi : Inv s) {h : Fin n} (hu : s.pcOf h ≠ .user)
    (hl : ∀ l k, s.pcOf h = .acq l k → s.locks l = none) : ∃ s', go s h .go = some s' := by
  have hw := hi.wf h
  cases hp : s.pcOf h
  case user => exact absurd hp hu
  case panic =>
    rw [hp] at hw
    exact hw.elim
  case acq l k =>
    simp only [go, hp, lock, hl l k hp]
    exact ⟨_, rfl⟩
  all_goals
    simp only [go, hp]
    repeat' split
    all_goals exact ⟨_, rfl⟩

/-- Where the others hold nothing, the lock that a hart calls for is free. -/
theorem Inv.free_of_others {s : State n} (hi : Inv s) {h : Fin n} {l : Lock} {k : Pc}
    (hl : ∀ h', h' ≠ h → (s.pcOf h').locks = ∅) (hp : s.pcOf h = .acq l k) : s.locks l = none := by
  by_contra hne
  obtain ⟨h', hl'⟩ := Option.ne_none_iff_exists'.1 hne
  by_cases hh : h' = h
  · have hpan := hi.not_panics (h := h)
    rw [hp] at hpan
    exact hpan (.relock l k (hh ▸ hl'))
  · have hm := (hi.lock h' l).1 hl'
    rw [hl h' hh] at hm
    simp at hm

theorem Update.not_running {s : State n} {h : Fin n} {pc k : Pc} {i : Slot} {q : Proc}
    (hu : Update s h pc i q k) (hp : (s.procs i).state = .ready) : q.state ≠ .running := by
  cases hu <;> simp_all [releaseproc]

/-- Only the scheduler that looks at it ends the wait of a READY process. -/
theorem ready_step {s s' : State n} {h : Fin n} {p : Slot} (hi : Inv s) (hf : Family s)
    (hs : Step s h s') (hp : (s.procs p).state = .ready) (hc : s.pcOf h ≠ .schedCheck p) :
    (s'.procs p).state = .ready := by
  rcases hi.proc_step hs p with he | hu | ⟨hpc, -⟩
  · rw [he, hp]
  · rcases hf.turn_update hi hu with he | ht
    · rw [he, hp]
    · rw [hp] at ht
      have hne := hu.not_running hp
      generalize (s'.procs p).state = st at ht hne
      cases ht
      exact absurd rfl hne
  · exact absurd hpc hc

/-! ## The locks -/

/-- A hart's own part of the state is not touched by the others. -/
theorem left_ne {f : Nat → Nat} {s s' : State n} {h h' : Fin n} (hi : Inv s) (hs : Step s h s')
    (hh : h' ≠ h) : left f s' h' = left f s h' := by
  have hpc := hi.pcOf_step hs hh
  have hspc : s'.spc h' = s.spc h' := by
    cases hs with
    | enter | leave => simp [hh]
    | _ => simp [State.spc_setPc, State.setCpu, State.setProc, State.setLock, State.setCproc, hh]
  rw [left, left, stage, stage, hpc, hspc, hs.cur_ne hh]

/-- Of the harts that hold locks one does not spin. -/
theorem exists_unblocked {s : State n} (hi : Inv s) (ho : Ordered s) {l : Lock} {h : Fin n}
    (hl : s.locks l = some h) : ∃ h, (s.pcOf h).locks ≠ ∅ ∧
      ∀ l' k, s.pcOf h = .acq l' k → s.locks l' = none := by
  have hmax : ∀ l : Lock, l.rank ≤ 2 := by
    intro l
    cases l <;> simp [Lock.rank]
  -- whoever it waits for holds a higher lock
  induction hm : 2 - l.rank using Nat.strong_induction_on generalizing l h with
  | _ m ih =>
      by_cases hb : ∃ l' k h', s.pcOf h = .acq l' k ∧ s.locks l' = some h'
      · obtain ⟨l', k, h', hp, hl'⟩ := hb
        have hlt := ho.rank_lt hi hp hl
        have hle := hmax l'
        exact ih (2 - l'.rank) (by omega) hl' rfl
      · refine ⟨h, Finset.ne_empty_of_mem ((hi.lock h l).1 hl), fun l' k hp => ?_⟩
        by_contra hne
        obtain ⟨h', hl'⟩ := Option.ne_none_iff_exists'.1 hne
        exact hb ⟨l', k, h', hp, hl'⟩

/-- **The locks can be given back**, in every reachable state, or somebody is about to pick
`p` before they are. -/
theorem drain {s : State n} {p : Slot} (hr : (system n).Reachable s)
    (hp : (s.procs p).state = .ready) : ∃ as s', run s as = some s' ∧
      ((system n).Reachable s' ∧ (s'.procs p).state = .ready) ∧
      ((∀ l, s'.locks l = none) ∨ ∃ h, s'.pcOf h = .schedCheck p) := by
  refine Lts.exec_descend
    (I := fun s : State n => (system n).Reachable s ∧ (s.procs p).state = .ready)
    (left (NPROC - ·)) ?_ ⟨hr, hp⟩
  rintro s ⟨hr, hp⟩ hq
  rw [not_or, not_forall, not_exists] at hq
  obtain ⟨⟨l, hl⟩, hq⟩ := hq
  have hi := inv_reachable hr
  obtain ⟨h₀, hl⟩ := Option.ne_none_iff_exists'.1 hl
  obtain ⟨h, hlocks, hfree⟩ := exists_unblocked hi (ordered_reachable hr) hl
  have hu : s.pcOf h ≠ .user := fun hu => hlocks (by rw [hu]; rfl)
  obtain ⟨s', hg⟩ := exists_go hi hu hfree
  have hs := go_step hg
  refine ⟨(h, .go), s', hg, ⟨hr.next (a := ⟨h, .go, emit s h .go⟩) ⟨hg, rfl⟩, ?_⟩, ?_⟩
  · exact ready_step hi (family_reachable hr) hs hp (hq h)
  · have hlt : left (NPROC - ·) s' h < left (NPROC - ·) s h := by
      apply go_left hi hg hu
      · intro hoff
        exact absurd (by rw [hoff]; rfl) hlocks
      · intro i _
        have := i.isLt
        omega
    refine Pi.lt_def.2 ⟨fun h' => ?_, h, hlt⟩
    by_cases hh : h' = h
    · exact hh ▸ hlt.le
    · exact (left_ne hi hs hh).le

/-! ## The process -/

/-- A scheduler that looks at a READY process goes to it. -/
theorem run_dispatch {s : State n} {p : Slot} {h : Fin n} (hp : (s.procs p).state = .ready)
    (hpc : s.pcOf h = .schedCheck p) :
    ∃ s', run s (goes h 2) = some s' ∧ s'.cur h = some p ∧ (s'.procs p).state = .running := by
  obtain ⟨s₁, hs₁⟩ : ∃ s₁, s₁ = ((s.setProc p { s.procs p with state := .running }).setCproc h
    (some p)).setPc h (.schedSwtch p) := ⟨_, rfl⟩
  have h₁ : next s h .go = some s₁ := by
    simp only [next, go, hpc, hp, if_true, hs₁]
  have hrun : (s₁.procs p).state = .running := by simp [hs₁, State.setProc, State.setCproc]
  have h₂ : next s₁ h .go = some { s₁ with
      spc := Function.update s₁.spc h (.schedBack p)
      cur := Function.update s₁.cur h (some p) } := by
    have hpc₁ : s₁.pcOf h = .schedSwtch p := by rw [hs₁, State.pcOf_setPc_self]
    simp only [next, go, hpc₁]
  refine ⟨_, Option.bind_eq_some_iff.2 ⟨s₁, h₁, Option.bind_eq_some_iff.2 ⟨_, h₂, rfl⟩⟩, ?_, hrun⟩
  exact Function.update_self _ _ _

/-- The next step of a hart that nobody keeps waiting: in user mode it is interrupted. -/
theorem exists_drive {s : State n} {p : Slot} {h : Fin n} (hr : (system n).Reachable s)
    (hl : ∀ h', h' ≠ h → (s.pcOf h').locks = ∅) (hq : s.pcOf h ≠ .schedCheck p) :
    ∃ c s', next s h c = some s' ∧ left (ahead p) s' h < left (ahead p) s h := by
  have hi := inv_reachable hr
  by_cases hu : s.pcOf h = .user
  · obtain ⟨s', ht⟩ : ∃ s', timer s h = some s' := by
      simp only [timer, sie_of_user hr hu, hu, if_true]
      split <;> exact ⟨_, rfl⟩
    exact ⟨.timer, s', ht, timer_left hi hu ht⟩
  · obtain ⟨s', hg⟩ := exists_go hi hu fun l k => hi.free_of_others hl
    refine ⟨.go, s', hg, go_left hi hg hu (fun _ => (ahead_end p).symm) fun i hpc => ahead_succ ?_⟩
    rintro rfl
    exact hq hpc

/-- A hart that nobody keeps waiting comes round to a READY process. -/
theorem come_round {s : State n} {p : Slot} {h : Fin n} (hr : (system n).Reachable s)
    (hp : (s.procs p).state = .ready) (hl : ∀ h', h' ≠ h → (s.pcOf h').locks = ∅) :
    ∃ as s', run s as = some s' ∧ ((system n).Reachable s' ∧ (s'.procs p).state = .ready ∧
      ∀ h', h' ≠ h → (s'.pcOf h').locks = ∅) ∧ s'.pcOf h = .schedCheck p := by
  refine Lts.exec_descend (I := fun s : State n => (system n).Reachable s ∧
    (s.procs p).state = .ready ∧ ∀ h', h' ≠ h → (s.pcOf h').locks = ∅)
    (fun s => left (ahead p) s h) ?_ ⟨hr, hp, hl⟩
  rintro s ⟨hr, hp, hl⟩ hq
  have hi := inv_reachable hr
  obtain ⟨c, s', hn, hlt⟩ := exists_drive hr hl hq
  have hs := next_step hn
  refine ⟨(h, c), s', hn, ⟨hr.next (a := ⟨h, c, emit s h c⟩) ⟨hn, rfl⟩, ?_, ?_⟩, hlt⟩
  · exact ready_step hi (family_reachable hr) hs hp hq
  · intro h' hh
    rw [hi.pcOf_step hs hh]
    exact hl h' hh

/-- **Every READY process can run.**  However any number of harts have got to a state, they can
go on from it so that one of them executes a process that is READY there: no lock is lost, no
scheduler is stuck, and no other process can hold on to its hart. -/
theorem ready_runs {s : State n} {p : Slot} (hn : 0 < n) (hr : (system n).Reachable s)
    (hp : (s.procs p).state = .ready) : ∃ as s' h, run s as = some s' ∧ s'.cur h = some p ∧
      (s'.procs p).state = .running := by
  obtain ⟨as, s₁, h₁, ⟨hr₁, hp₁⟩, hq⟩ := drain hr hp
  obtain ⟨bs, s₂, h, h₂, hp₂, hpc⟩ : ∃ bs s₂ h, run s₁ bs = some s₂ ∧
      (s₂.procs p).state = .ready ∧ s₂.pcOf h = .schedCheck p := by
    rcases hq with hfree | ⟨h, hpc⟩
    · have hempty : ∀ h', (s₁.pcOf h').locks = ∅ := by
        intro h'
        refine Finset.eq_empty_of_forall_notMem fun l hm => ?_
        rw [← (inv_reachable hr₁).lock, hfree l] at hm
        cases hm
      obtain ⟨bs, s₂, h₂, ⟨-, hp₂, -⟩, hpc⟩ :=
        come_round (h := ⟨0, hn⟩) hr₁ hp₁ fun h' _ => hempty h'
      exact ⟨bs, s₂, _, h₂, hp₂, hpc⟩
    · exact ⟨[], s₁, h, rfl, hp₁, hpc⟩
  obtain ⟨s₃, h₃, hcur, hst⟩ := run_dispatch hp₂ hpc
  exact ⟨_, s₃, h, Lts.exec_append h₁ (Lts.exec_append h₂ h₃), hcur, hst⟩

/-- `init` has forked; the child is READY, and hart 0 is in user mode. -/
theorem ready_runs_forked : ∃ s : State 1, (system 1).Reachable s ∧
    (s.procs 1).state = .ready ∧ s.pcOf 0 = .user ∧ ∃ as s' h, run s as = some s' ∧
      s'.cur h = some 1 ∧ (s'.procs 1).state = .running := by
  have hrun : (run (boot 1) (goes 0 9 ++ [(0, .fork)] ++ goes 0 24)).map
      (fun s => ((s.procs 1).state, s.pcOf 0)) = some (.ready, .user) := by
    decide +kernel
  obtain ⟨s, hs, he⟩ := Option.map_eq_some_iff.1 hrun
  simp only [Prod.mk.injEq] at he
  have hr := reachable_run (.start rfl) hs
  exact ⟨s, hr, he.1, he.2, ready_runs (by decide) hr he.1⟩

end Wl00.Sched
