import Wl00.Sched.Fine

/-!
# The scheduler's pass

A pass of `scheduler` turns interrupts off and goes through the slots.  Its `unlock`s end in
`pop_off`, which consults the `intena` of the hart; that field was last written by the thread
that took the lock, and after a process has switched back this is the process.  So the pass
stays uninterrupted as long as every process that switches back has taken its lock with
interrupts off (`scan_uninterrupted`), and a process that blocks in a system call has not
(`scan_interruptible`).
-/

namespace Wl00.Sched

variable {n : Nat}

/-- In the loop of `scheduler` over the slots: between the `interrupt_off` of a pass and the
`interrupt_on` of the next one, or in a handler that interrupted it there. -/
@[simp] def Pc.inPass : Pc → Bool
  | .acq _ k | .rel _ k | .mm k | .trapYield _ k | .sret k | .wakeup _ _ k | .clockTick k
  | .wakeCheck _ _ k | .sched k | .schedRet _ k | .yieldSet _ k | .sleepSet _ _ _ k
  | .sleepWake _ _ k | .release _ _ k => inPass k
  | .schedScan _ | .schedCheck _ | .schedSwtch _ | .schedBack _ | .schedReap _ => true
  | _ => false

/-- History: the harts to whose scheduler a process has switched back with `intena` set since
the `interrupt_off` of the pass. -/
def noteIntena (s : State n) (a : Label n) (g : Fin n → Bool) : Fin n → Bool :=
  if a.choice = .timer then g else
  match s.pcOf a.hart with
  | .sched _ | .exitSched _ => Function.update g a.hart (g a.hart || (s.cpus a.hart).intena)
  | .schedOff => Function.update g a.hart false
  | _ => g

/-! ## One step -/

section Step

variable {s s' : State n} {h : Fin n} {pc k : Pc}

@[simp] theorem inPass_clockintr : (clockintr h k).inPass = k.inPass := by
  unfold clockintr
  split <;> rfl

/-- A pass begins at `interrupt_off`. -/
theorem Silent.inPass (hk : Silent s h pc k) (hs : k.inPass = true) :
    pc.inPass = true ∨ pc = .schedOff := by
  cases hk <;> simp_all [failFork, reap]

/-- Without interrupts no handler is entered. -/
theorem Silent.frames_eq_nil (hk : Silent s h pc k) (hf : pc.frames = [])
    (hs : (s.cpus h).sie = false) : k.frames = [] := by
  cases hk
  case timerUser hc _ | timerKernel hc _ => exact absurd hc (by simp [hs])
  all_goals simp_all [failFork, reap]

theorem Update.inPass {i : Slot} {q : Proc} (hu : Update s h pc i q k) :
    k.inPass = pc.inPass := by
  cases hu <;> simp

theorem Update.frames {i : Slot} {q : Proc} (hu : Update s h pc i q k) : k.frames = pc.frames := by
  cases hu <;> simp

/-- `lock` with interrupts off and nothing to bring them back. -/
theorem pushOff_quiet {c : Spinlock.Cpu} (hs : c.sie = false)
    (hd : c.depth ≠ 0 → c.intena = false) :
    (Spinlock.pushOff c).sie = false ∧ (Spinlock.pushOff c).intena = false := by
  refine ⟨rfl, ?_⟩
  unfold Spinlock.pushOff
  split_ifs with h0
  · exact hs
  · exact hd h0

theorem popOff_quiet {c d : Spinlock.Cpu} (hp : Spinlock.popOff c = .ok d)
    (hi : c.depth ≠ 0 → c.intena = false) : d.sie = false ∧ d.intena = false := by
  unfold Spinlock.popOff at hp
  split at hp
  · cases hp
  · next hs =>
    split at hp
    · cases hp
    · next hd =>
      cases hp
      have hf := hi (by omega)
      simp [hf, hs]

/-- The scheduler of hart `h` cannot be interrupted, nor has it been since the pass began, if
no process has brought a set `intena`. -/
def Quiet (s : State n) (g : Fin n → Bool) (h : Fin n) : Prop :=
  s.cur h = none → (s.pcOf h).inPass = true → g h = false →
    (s.cpus h).sie = false ∧ ((s.cpus h).depth ≠ 0 → (s.cpus h).intena = false) ∧
      (s.pcOf h).frames = []

variable {g : Fin n → Bool} {a : Label n}

theorem noteIntena_ne (hh : h ≠ a.hart) : noteIntena s a g h = g h := by
  unfold noteIntena
  split_ifs
  · rfl
  · cases s.pcOf a.hart <;> simp [hh]

/-- Only `swtch` and `interrupt_off` are noted. -/
theorem noteIntena_of (hl : ∀ k, ¬Leaves (s.pcOf a.hart) k) (hp : s.pcOf a.hart ≠ .schedOff) :
    noteIntena s a g = g := by
  unfold noteIntena
  split_ifs
  · rfl
  · split
    · next k he => exact absurd (.inl he) (hl k)
    · next p he => exact absurd (.inr ⟨p, he, rfl⟩) (hl (.dead p))
    · next he => exact absurd he hp
    · rfl

/-- Within the pass nothing is noted. -/
theorem Inv.noteIntena_eq (hi : Inv s) (hc : s.cur a.hart = none)
    (hs : (s.pcOf a.hart).inPass = true) : noteIntena s a g = g := by
  have hw := hi.wf a.hart
  rw [hc] at hw
  refine noteIntena_of ?_ ?_
  · rintro k (he | ⟨p, he, -⟩) <;> simp [he] at hw
  · intro he
    simp [he] at hs

end Step

namespace Quiet

variable {s s' : State n} {g : Fin n → Bool} {a : Label n}

/-- The hart's interrupts being off, a timer interrupt has to wait. -/
theorem timer (hq : Quiet s g a.hart) (ht : Sched.timer s a.hart = some s') :
    Quiet s' g a.hart := by
  intro hc hs hg
  unfold Sched.timer at ht
  split_ifs at ht with hsie hp
  · split at ht <;> cases ht <;> simp at hs
  · cases ht
    have hsc : (s.pcOf a.hart).inPass = true := by simpa using hs
    have hcur : s.cur a.hart = none := by simpa [State.setSie, State.setCpu] using hc
    rw [(hq hcur hsc hg).1] at hsie
    cases hsie

/-- A step that stays within the pass and leaves the hart's bookkeeping alone. -/
theorem of_eq (hq : Quiet s g a.hart) (hi : Inv s) (hcur : s'.cur a.hart = s.cur a.hart)
    (hcpu : s'.cpus a.hart = s.cpus a.hart)
    (hs : (s'.pcOf a.hart).inPass = (s.pcOf a.hart).inPass)
    (hf : (s'.pcOf a.hart).frames = (s.pcOf a.hart).frames) :
    Quiet s' (noteIntena s a g) a.hart := by
  intro hc hs' hg
  rw [hcur] at hc
  rw [hs] at hs'
  rw [hi.noteIntena_eq hc hs'] at hg
  rw [hcpu, hf]
  exact hq hc hs' hg

theorem silent (hq : Quiet s g a.hart) (hi : Inv s) (hn : Sched.go s a.hart a.choice = some s')
    {k : Pc} (hk : Silent s a.hart (s.pcOf a.hart) k) (hcur : s'.cur a.hart = s.cur a.hart)
    (hp : s'.pcOf a.hart = k) (hd : (s'.cpus a.hart).depth = (s.cpus a.hart).depth)
    (hsie : (s'.cpus a.hart).sie = true → (s.cpus a.hart).sie = true ∨ s.pcOf a.hart = .user ∨
      s.pcOf a.hart = .utrapret ∨ s.pcOf a.hart = .schedOn ∨ s.pcOf a.hart = .sret k) :
    Quiet s' (noteIntena s a g) a.hart := by
  intro hc hs hg
  rw [hcur] at hc
  rw [hp] at hs ⊢
  have hw := hi.wf a.hart
  rw [hc] at hw
  rcases hk.inPass hs with hsc | hoff
  · rw [hi.noteIntena_eq hc hsc] at hg
    obtain ⟨h1, h2, h3⟩ := hq hc hsc hg
    refine ⟨?_, ?_, hk.frames_eq_nil h3 h1⟩
    · rw [← Bool.not_eq_true]
      intro ht
      rcases hsie ht with he | he | he | he | he
      · simp [h1] at he
      all_goals simp_all
    · rw [hd, go_intena hn (fun l k' he => ?_) (fun ia k' he => ?_)]
      · exact h2
      · rw [he] at hk
        cases hk
        simp_all
      · simp [he] at hw
  · -- `interrupt_off`, with no lock held
    have hl : (s.cpus a.hart).depth = 0 := by
      rw [hi.depth, hoff]
      rfl
    rw [hd, hl]
    simp only [Sched.go, hoff, Option.some.injEq] at hn
    subst hn
    simp only [State.pcOf_setPc_self] at hp
    subst hp
    simp [State.setSie, State.setCpu]

/-- `lock` and `unlock`, which leave the hart with `c`. -/
theorem setLock (hq : Quiet s g a.hart) (hi : Inv s) {l : Lock} {o : Option (Fin n)} {k : Pc}
    {c : Spinlock.Cpu} (hs : k.inPass = (s.pcOf a.hart).inPass)
    (hf : k.frames = (s.pcOf a.hart).frames)
    (hoff : (s.cpus a.hart).sie = false →
      ((s.cpus a.hart).depth ≠ 0 → (s.cpus a.hart).intena = false) →
        c.sie = false ∧ c.intena = false) :
    Quiet (((s.setLock l o).setCpu a.hart c).setPc a.hart k) (noteIntena s a g) a.hart := by
  intro hu hs' hg
  rw [State.pcOf_setPc_self, hs] at hs'
  rw [State.pcOf_setPc_self, hf]
  have hcur : s.cur a.hart = none := by simpa [State.setCpu, State.setLock] using hu
  rw [hi.noteIntena_eq hcur hs'] at hg
  obtain ⟨h1, h2, h3⟩ := hq hcur hs' hg
  obtain ⟨hsie, hint⟩ := hoff h1 h2
  refine ⟨?_, fun _ => ?_, h3⟩
  · simpa [State.setCpu] using hsie
  · simpa [State.setCpu] using hint

/-- A process switches back, with its lock held. -/
theorem leaves (hi : Inv s) (hc : a.choice ≠ .timer) {p : Slot} {k k' : Pc}
    (hl : Leaves (s.pcOf a.hart) k) :
    Quiet { s with
      tpc := Function.update s.tpc p k'
      cur := Function.update s.cur a.hart none } (noteIntena s a g) a.hart := by
  intro hu _ hg
  have hw := hi.wf a.hart
  obtain ⟨q, hq, hlock⟩ : ∃ q, s.cur a.hart = some q ∧ .proc q ∈ (s.pcOf a.hart).locks := by
    rcases hl with he | ⟨q, he, -⟩ <;> rw [he] at hw ⊢
    · obtain ⟨-, -, -, -, q, hq, hk⟩ := hw
      exact ⟨q, hq, by simp [hk]⟩
    · exact ⟨q, hw, by simp⟩
  have hoff : (s.cpus a.hart).sie = false := by
    rw [← Bool.not_eq_true]
    intro ht
    simp [hi.locks_eq_empty ht] at hlock
  have hint : (s.cpus a.hart).intena = false := by
    have : g a.hart = false ∧ (s.cpus a.hart).intena = false := by
      rcases hl with he | ⟨q, he, -⟩ <;> simpa [noteIntena, hc, he] using hg
    exact this.2
  refine ⟨hoff, fun _ => hint, ?_⟩
  rw [State.pcOf_none _ hu]
  simp [(hi.cur a.hart q hq).1]

/-- The next step of a scheduler in its pass. -/
theorem go (hq : Quiet s g a.hart) (hi : Inv s) (hc : a.choice ≠ .timer)
    (hn : Sched.go s a.hart a.choice = some s') : Quiet s' (noteIntena s a g) a.hart := by
  cases go_step hn with
  | @silent k c pid t hk hd hsie _ =>
      refine hq.silent hi hn hk (congrFun (State.cur_setPc ..) _) (State.pcOf_setPc_self ..) ?_ ?_
      · simpa [State.setCpu] using hd
      · simpa [State.setCpu] using hsie
  | @update i q k hu =>
      refine hq.of_eq hi (congrFun (State.cur_setPc ..) _) (congrFun (State.cpus_setPc ..) _) ?_ ?_
      · rw [State.pcOf_setPc_self, hu.inPass]
      · rw [State.pcOf_setPc_self, hu.frames]
  | @acq l k hp hl =>
      apply hq.setLock hi
      · simp [hp]
      · simp [hp]
      · exact pushOff_quiet
  | @rel l k c hp hl hpop =>
      apply hq.setLock hi
      · simp [hp]
      · simp [hp]
      · intro _ h2
        exact popOff_quiet hpop h2
  | @alloc p i hp =>
      intro _ hs _
      rw [State.pcOf_setPc_self] at hs
      cases hs
  | @dispatch i hp hst =>
      refine hq.of_eq hi ?_ ?_ ?_ ?_ <;> simp [State.setCproc, State.setProc, hp]
  | @enter i hp =>
      intro hu
      simp at hu
  | @leave p k hl hcp hst =>
      exact leaves hi hc hl
  | @back i hp =>
      refine hq.of_eq hi ?_ ?_ ?_ ?_ <;> simp [State.setCproc, hp]
  | panic hp => exact absurd hp hi.not_panics

theorem step (hq : ∀ h, Quiet s g h) (hi : Inv s) (hn : next s a.hart a.choice = some s') (h : Fin n) :
    Quiet s' (noteIntena s a g) h := by
  have hs := next_step hn
  by_cases hh : h = a.hart
  · subst hh
    by_cases hc : a.choice = .timer
    · rw [hc] at hn
      rw [noteIntena, if_pos hc]
      exact (hq a.hart).timer hn
    · rw [next_of_ne_timer hc] at hn
      exact (hq a.hart).go hi hc hn
  · unfold Quiet
    rw [hs.cur_ne hh, hi.pcOf_step hs hh, hs.cpus_ne hh, noteIntena_ne hh]
    exact hq h

end Quiet

theorem quiet_reachable {s : State n} {g : Fin n → Bool}
    (hr : ((system n).watch (fun _ => false) noteIntena).Reachable (s, g)) (h : Fin n) :
    Quiet s g h := by
  refine hr.invariant (I := fun x => ∀ h, Quiet x.1 x.2 h) ?_ ?_ h
  · rintro ⟨s, g⟩ ⟨rfl, rfl⟩ h _ hs _
    cases hs
  · rintro ⟨s, g⟩ a ⟨s', g'⟩ hr hq ⟨⟨hn, -⟩, rfl⟩
    exact Quiet.step hq (inv_reachable hr.of_watch) hn

/-- **The scheduler scans with interrupts off**, as long as no process has switched back to
it in this pass with `intena` set. -/
theorem scan_uninterrupted {s : State n} {g : Fin n → Bool}
    (hr : ((system n).watch (fun _ => false) noteIntena).Reachable (s, g)) {h : Fin n}
    (hc : s.cur h = none) (hs : (s.pcOf h).inPass = true) (hg : g h = false) :
    (s.cpus h).sie = false :=
  (quiet_reachable hr h hc hs hg).1

/-- `init` is preempted in user mode and switches back; its lock has been released. -/
theorem scan_uninterrupted_preempted : ∃ (s : State 1) (g : Fin 1 → Bool),
    ((system 1).watch (fun _ => false) noteIntena).Reachable (s, g) ∧
      s.pcOf 0 = .schedScan 1 ∧ (s.procs 0).state = .ready ∧ (s.cpus 0).sie = false := by
  have hrun : (runWatched noteIntena (boot 1, fun _ => false)
      (goes 0 9 ++ [(0, .timer)] ++ goes 0 138)).map
        (fun x => (x.1.pcOf 0, x.1.cur 0, (x.1.procs 0).state, x.2 0)) =
      some (.schedScan 1, none, .ready, false) := by
    decide +kernel
  obtain ⟨⟨s, g⟩, hx, he⟩ := Option.map_eq_some_iff.1 hrun
  simp only [Prod.mk.injEq] at he
  obtain ⟨hp, hc, hst, hg⟩ := he
  have h0 : ((system 1).watch (fun _ => false) noteIntena).Reachable (boot 1, fun _ => false) :=
    .start ⟨rfl, rfl⟩
  have hr := reachable_runWatched rfl h0 hx
  exact ⟨s, g, hr, hp, hst, scan_uninterrupted hr hc (by simp [hp]) hg⟩

/-- **The scheduler can be interrupted in its pass.**  `init` calls `sleep` and blocks with
interrupts on; when the scheduler has released its lock, SIE is set. -/
theorem scan_interruptible : ∃ s : State 1, (system 1).Reachable s ∧ s.cur 0 = none ∧
    s.pcOf 0 = .schedScan 1 ∧ (s.cpus 0).sie = true := by
  have hrun : (run (boot 1) (goes 0 9 ++ [(0, .sleep 1)] ++ goes 0 10)).map
      (fun s => (s.cur 0, s.pcOf 0, (s.cpus 0).sie)) = some (none, .schedScan 1, true) := by
    decide +kernel
  obtain ⟨s, hs, he⟩ := Option.map_eq_some_iff.1 hrun
  simp only [Prod.mk.injEq] at he
  exact ⟨s, reachable_run (.start rfl) hs, he⟩

end Wl00.Sched
