import Wl00.Sched.Scan
import Wl00.Sched.Tree

/-!
# Inside the interrupt handler

A thread that has been interrupted in the kernel runs `s_trap_handle` on top of what it was
doing.  There interrupts are off from the trap to the `sret`: the locks the handler takes
find them off and leave them so, also when the handler yields and the thread resumes on
another hart.  So a thread is never interrupted twice at a time.

* `handled_reachable` — this, in every run.
* `live_of_frames` — a process in the handler neither exits nor is reset.
* `user_entered` — user mode is entered through `utrapret` only.
-/

namespace Wl00.Sched

variable {n : Nat}

/-- A thread is in the handler, and interrupts are off on its hart until it returns. -/
structure Handled (s : State n) : Prop where
  off : ∀ h, (s.pcOf h).frames ≠ [] → (s.cpus h).sie = false ∧
    ((∀ ia k, s.pcOf h ≠ .schedRet ia k) → (s.cpus h).depth ≠ 0 → (s.cpus h).intena = false)
  parked : ∀ p ia k, s.tpc p = .schedRet ia k → k.frames ≠ [] → ia = false
  once : ∀ t, ∀ k ∈ (s.pcAt t).frames, k.frames = []

section Step

variable {s s' : State n} {h : Fin n} {c : Choice}

/-- Interrupts and returns from them apart, a step leaves every thread in the handlers it
is in. -/
theorem Inv.frames_go (hi : Inv s) (hg : go s h c = some s') (hret : ∀ k, s.pcOf h ≠ .sret k)
    (hall : ∀ p i, s.pcOf h ≠ .paAlloc p i) (t : Thread n) :
    (s'.pcAt t).frames = (s.pcAt t).frames := by
  have hwf := (step_inv hi (go_step hg)).wf h
  have hpan : s'.pcOf h ≠ .panic := by
    intro he
    rw [he] at hwf
    exact hwf
  by_cases hacq : ∃ l k, s.pcOf h = .acq l k
  · obtain ⟨l, k, hp⟩ := hacq
    simp only [go, hp, lock] at hg
    split at hg
    · cases hg
      have hk : k.frames = (s.pcOf h).frames := by rw [hp]; rfl
      refine frames_setPc ?_ ?_ hk t <;> rfl
    · split_ifs at hg
      cases hg
      exact absurd (State.pcOf_setPc_self ..) hpan
  by_cases hrel : ∃ l k, s.pcOf h = .rel l k
  · obtain ⟨l, k, hp⟩ := hrel
    simp only [go, hp, unlock, Option.some.injEq] at hg
    subst hg
    split_ifs at hpan ⊢
    · split at hpan
      · have hk : k.frames = (s.pcOf h).frames := by rw [hp]; rfl
        refine frames_setPc ?_ ?_ hk t <;> rfl
      · exact absurd (State.pcOf_setPc_self ..) hpan
    · exact absurd (State.pcOf_setPc_self ..) hpan
  simp only [not_exists] at hacq hrel
  exact (go_frames hi hg hacq hrel hret hall).elim (fun hf => hf t) fun he => absurd he hpan

/-- `procalloc` gives a slot a new thread. -/
theorem frames_paAlloc {p i : Slot} (hp : s.pcOf h = .paAlloc p i) (hg : go s h c = some s')
    (t : Thread n) : (s'.pcAt t).frames = (s.pcAt t).frames ∨
      (c ≠ .fail ∧ t = .proc i) ∧ s'.pcAt t = .forkret i := by
  simp only [go, hp] at hg
  split_ifs at hg with hc <;> cases hg
  · exact .inl (frames_setPc rfl rfl (by rw [hp]; rfl) t)
  · rw [State.pcAt_setPc]
    split
    · next ht =>
      left
      rw [ht, show State.thread { s with tpc := Function.update s.tpc i (.forkret i) } h = s.thread h
        from rfl, State.pcAt_thread, hp]
      rfl
    · cases t with
      | sched h' => exact .inl rfl
      | proc q =>
          by_cases hq : q = i
          · rw [hq]
            exact .inr ⟨⟨hc, rfl⟩, Function.update_self ..⟩
          · exact .inl (congrArg Pc.frames (Function.update_of_ne hq _ _))

/-- `sched` passes its checks and leaves the hart to the scheduler. -/
theorem Inv.go_leaves (hi : Inv s) {k : Pc} (hl : Leaves (s.pcOf h) k) (hg : go s h c = some s') :
    ∃ p, s.cur h = some p ∧ s' = { s with
      tpc := Function.update s.tpc p (.schedRet (s.cpus h).intena k)
      cur := Function.update s.cur h none } := by
  have hgo : go s h c = some (sched s h k) := by
    rcases hl with he | ⟨q, he, rfl⟩ <;> simp only [go, he]
  obtain rfl : sched s h k = s' := Option.some.inj (hgo.symm.trans hg)
  obtain ⟨p, hu, -⟩ := hl.locks (hi.wf h)
  have hc := (hi.cur h p hu).2
  refine ⟨p, hu, sched_fit hc fun hun => ?_⟩
  have hwf := (step_inv hi (go_step hg)).wf h
  rw [sched_unfit hc hun, State.pcOf_setPc_self] at hwf
  exact hwf

/-- Without `swtch` a hart stays on its stack. -/
theorem thread_go (hg : go s h c = some s') (hsw : ∀ i, s.pcOf h ≠ .schedSwtch i)
    (hlv : ∀ k, ¬Leaves (s.pcOf h) k) : s'.thread h = s.thread h := by
  have hcur : s'.cur h = s.cur h := by
    cases go_step hg with
    | enter hp => exact absurd hp (hsw _)
    | leave hl _ _ => exact absurd hl (hlv _)
    | _ => simp [State.setCpu, State.setProc, State.setLock, State.setCproc]
  rw [State.thread, State.thread, hcur]

/-- `swtch` goes to another stack, and not to user mode. -/
theorem Inv.thread_swtch (hi : Inv s) (hg : go s h c = some s')
    (hsw : (∃ i, s.pcOf h = .schedSwtch i) ∨ ∃ k, Leaves (s.pcOf h) k) :
    s'.thread h ≠ s.thread h ∧ s'.pcOf h ≠ .user := by
  rcases hsw with ⟨i, hp⟩ | ⟨k, hl⟩
  · have hu := Inv.cur_eq_none hi.toRunInv hp fun _ => id
    rw [s.pcOf_none hu] at hp
    obtain ⟨-, hres⟩ := hi.swtch h i hu hp
    rw [← s.pcOf_none hu] at hp
    simp only [go, hp] at hg
    cases hg
    rw [Inv.pcOf_enter, State.thread_none hu]
    refine ⟨?_, ?_⟩
    · simp [State.thread]
    · rcases hres with he | ⟨ia, k, he⟩ <;> rw [he] <;> simp
  · obtain ⟨p, hu, rfl⟩ := hi.go_leaves hl hg
    rw [Inv.pcOf_leave, (hi.cur h p hu).1, State.thread_some hu]
    exact ⟨by simp [State.thread], by simp⟩

end Step

theorem clockintr_ne_schedRet {h : Fin n} {k : Pc} (hk : ∀ ia k', k ≠ .schedRet ia k') (ia : Bool)
    (k' : Pc) : clockintr h k ≠ .schedRet ia k' := by
  unfold clockintr
  split
  · exact nofun
  · exact hk ia k'

namespace Handled

variable {s s' : State n} {h : Fin n} {c : Choice}

theorem frames_of_sie (hd : Handled s) (hs : (s.cpus h).sie = true) : (s.pcOf h).frames = [] := by
  by_contra hf
  rw [(hd.off h hf).1] at hs
  cases hs

/-- Hart `h` has made a step: what remains to be looked at is where it is now. -/
theorem of_step (hd : Handled s) (hi : Inv s) (hs : Step s h s')
    (hoff : (s'.pcOf h).frames ≠ [] → (s'.cpus h).sie = false ∧
      ((∀ ia k, s'.pcOf h ≠ .schedRet ia k) → (s'.cpus h).depth ≠ 0 → (s'.cpus h).intena = false))
    (hparked : ∀ p ia k, s.cur h = some p → s'.tpc p = .schedRet ia k → k.frames ≠ [] → ia = false)
    (honce : ∀ t, ∀ k ∈ (s'.pcAt t).frames, k.frames = []) : Handled s' := by
  refine ⟨fun h' hf => ?_, fun p ia k hp hf => ?_, honce⟩
  · by_cases hh : h' = h
    · subst hh
      exact hoff hf
    · rw [hi.pcOf_step hs hh] at hf ⊢
      rw [hs.cpus_ne hh]
      exact hd.off h' hf
  · by_cases hu : s.cur h = some p
    · exact hparked p ia k hu hp hf
    · rcases hi.tpc_step_other hs hu with he | ⟨-, he⟩ <;> rw [he] at hp
      · exact hd.parked p ia k hp hf
      · cases hp

theorem timer (hd : Handled s) (hi : Inv s) (ht : Sched.timer s h = some s') : Handled s' := by
  have hsie : (s.cpus h).sie = true := by
    unfold Sched.timer at ht
    split_ifs at ht <;> assumption
  have hnil := hd.frames_of_sie hsie
  obtain ⟨k, -, he, -⟩ := hi.timer_silent ht
  refine hd.of_step hi (timer_step ht) (fun _ => ?_) (fun p ia k' hu hp _ => ?_) fun t k' hk => ?_
  · have hdepth : (s'.cpus h).depth = 0 := by
      rw [he]
      simpa [State.setSie, State.setCpu] using hi.sie h hsie
    refine ⟨?_, fun _ hne => absurd hdepth hne⟩
    rw [he]
    simp [State.setSie, State.setCpu]
  · -- the handler starts in `clockintr` or at the check before `yield`
    unfold Sched.timer at ht
    rw [if_pos hsie] at ht
    have hset : ∀ k, ((s.setSie h false).setPc h k).tpc p = k := fun k => by
      rw [State.tpc_setPc]
      exact if_pos hu
    split_ifs at ht
    · rw [(hi.cur h p hu).2] at ht
      cases ht
      rw [hset] at hp
      exact absurd hp (clockintr_ne_schedRet (fun _ _ he => by cases he) _ _)
    · cases ht
      rw [hset] at hp
      exact absurd hp (clockintr_ne_schedRet (fun _ _ he => by cases he) _ _)
  · rw [timer_frames hi ht] at hk
    split_ifs at hk
    · rw [hnil] at hk
      rw [List.mem_singleton.1 hk]
      exact hnil
    · exact hd.once t k' hk

/-- A hart that leaves a thread in the handler has `intena` clear. -/
theorem parked_go (hd : Handled s) (hi : Inv s) (hf : (s.pcOf h).Flat)
    (hnr : (s.cpus h).sie = true → (s.pcOf h).noRet) (hg : Sched.go s h c = some s') {p : Slot}
    {ia : Bool} {k : Pc} (hu : s.cur h = some p) (hp : s'.tpc p = .schedRet ia k)
    (hk : k.frames ≠ []) : ia = false := by
  have hm := hi.tpc_step_self (go_step hg) hu
  have hpc := s.pcOf_some hu
  rw [hp, ← hpc] at hm
  have hl : Leaves (s.pcOf h) k := by
    rcases hm.flat hf hnr with hno | ⟨k', he, -⟩ | ⟨ia', k', he, -, hl⟩
    · exact hno.elim
    · cases he
    · cases he
      exact hl
  have hfr : (s.pcOf h).frames ≠ [] := by
    rcases hl with he | ⟨q, he, rfl⟩
    · rw [he]
      exact hk
    · exact absurd rfl hk
  have hia : ia = (s.cpus h).intena := by
    obtain ⟨q, hq, rfl⟩ := hi.go_leaves hl hg
    obtain rfl : p = q := Option.some.inj (hu.symm.trans hq)
    have hp' := (Function.update_self ..).symm.trans hp
    cases hp'
    rfl
  obtain ⟨-, hint⟩ := hd.off h hfr
  rw [hia]
  refine hint (fun ia' k' he => ?_) ?_
  · rcases hl with he' | ⟨q, he', -⟩ <;> rw [he'] at he <;> cases he
  · obtain ⟨q, -, hlocks⟩ := hl.locks (hi.wf h)
    rw [hi.depth, hlocks]
    simp

/-- A thread in the handler goes on there. -/
theorem off_go (hd : Handled s) (hi : Inv s) (hg : Sched.go s h c = some s')
    (hf : (s.pcOf h).frames ≠ []) (hret : ∀ k, s.pcOf h ≠ .sret k) :
    (s'.cpus h).sie = false ∧ ((s'.cpus h).depth ≠ 0 → (s'.cpus h).intena = false) := by
  obtain ⟨hsie, hint⟩ := hd.off h hf
  by_cases hback : ∃ ia k, s.pcOf h = .schedRet ia k
  · -- the thread has just resumed, with its own `intena`
    obtain ⟨ia, k, hp⟩ := hback
    obtain ⟨p, hu⟩ : ∃ p, s.cur h = some p := by
      have hw := hi.wf h
      rw [hp] at hw
      obtain ⟨-, -, -, -, p, hu, -⟩ := hw
      exact ⟨p, hu⟩
    have hk : k.frames ≠ [] := by
      rw [hp] at hf
      exact hf
    rw [s.pcOf_some hu] at hp
    have hia := hd.parked p ia k hp hk
    rw [← s.pcOf_some hu] at hp
    simp only [Sched.go, hp] at hg
    cases hg
    simpa [State.setCpu, hia] using hsie
  simp only [not_exists] at hback
  have hint := hint hback
  cases go_step hg with
  | @silent k _ _ _ hk hdep hs _ =>
      have hne : ∀ l k, s.pcOf h ≠ .acq l k := by
        intro l k he
        rw [he] at hk
        cases hk with
        | timerKernel _ ht _ => simp [hsie] at ht
      constructor
      · rw [← Bool.not_eq_true]
        intro ht
        rcases hs (by simpa [State.setCpu] using ht) with he | he | he | he | he
        · simp [hsie] at he
        · simp [he] at hf
        · simp [he] at hf
        · simp [he] at hf
        · exact hret k he
      · rw [go_intena hg hne hback]
        simpa [State.setCpu, hdep] using hint
  | acq hp hl =>
      have hq := pushOff_quiet hsie hint
      simpa [State.setCpu] using ⟨hq.1, fun _ => hq.2⟩
  | rel hp hl hpop =>
      have hq := popOff_quiet hpop hint
      simpa [State.setCpu] using ⟨hq.1, fun _ => hq.2⟩
  | _ => simpa [State.setCproc, State.setProc] using ⟨hsie, hint⟩

/-- The thread returns from the handler. -/
theorem frames_sret (hd : Handled s) {k : Pc} (hp : s.pcOf h = .sret k)
    (hg : Sched.go s h c = some s') (t : Thread n) :
    (s'.pcAt t).frames = if t = s.thread h then [] else (s.pcAt t).frames := by
  have hk : k.frames = [] := by
    refine hd.once (s.thread h) k ?_
    rw [State.pcAt_thread, hp]
    exact List.mem_cons_self ..
  simp only [Sched.go, hp] at hg
  cases hg
  have hth : (s.setSie h true).thread h = s.thread h := rfl
  rw [State.pcAt_setPc, hth]
  by_cases ht : t = s.thread h
  · rw [if_pos ht, if_pos ht]
    exact hk
  · rw [if_neg ht, if_neg ht]
    rfl

theorem go (hd : Handled s) (hi : Inv s) (hf : (s.pcOf h).Flat)
    (hnr : (s.cpus h).sie = true → (s.pcOf h).noRet) (hg : Sched.go s h c = some s') :
    Handled s' := by
  have hs := go_step hg
  refine hd.of_step hi hs (fun hfr => ?_) (fun p ia k hu hp hk => hd.parked_go hi hf hnr hg hu hp hk)
    fun t k hk => ?_
  · by_cases hsw : ∃ i, s.pcOf h = .schedSwtch i
    · -- the lock of the process is held while `swtch` goes to it
      obtain ⟨i, hp⟩ := hsw
      have hsie : (s.cpus h).sie = false := by
        rw [← Bool.not_eq_true]
        intro ht
        have hl := hi.locks_eq_empty ht
        simp [hp] at hl
      have hu := Inv.cur_eq_none hi.toRunInv hp fun _ => id
      rw [s.pcOf_none hu] at hp
      obtain ⟨-, hres⟩ := hi.swtch h i hu hp
      rw [← s.pcOf_none hu] at hp
      simp only [Sched.go, hp] at hg
      cases hg
      rw [Inv.pcOf_enter] at hfr ⊢
      refine ⟨hsie, fun hno => ?_⟩
      rcases hres with he | ⟨ia, k, he⟩
      · rw [he] at hfr
        exact absurd rfl hfr
      · exact absurd he (hno ia k)
    by_cases hlv : ∃ k, Leaves (s.pcOf h) k
    · obtain ⟨k, hl⟩ := hlv
      obtain ⟨p, hu, rfl⟩ := hi.go_leaves hl hg
      rw [Inv.pcOf_leave, (hi.cur h p hu).1] at hfr
      exact absurd rfl hfr
    simp only [not_exists] at hsw hlv
    have hth := thread_go hg hsw hlv
    rw [← State.pcAt_thread, hth] at hfr
    by_cases hret : ∃ k, s.pcOf h = .sret k
    · obtain ⟨k, hp⟩ := hret
      rw [hd.frames_sret hp hg, if_pos rfl] at hfr
      exact absurd rfl hfr
    by_cases hall : ∃ p i, s.pcOf h = .paAlloc p i
    · obtain ⟨p, i, hp⟩ := hall
      rcases frames_paAlloc hp hg (s.thread h) with he | ⟨-, he⟩ <;> rw [he] at hfr
      · rw [State.pcAt_thread, hp] at hfr
        exact absurd rfl hfr
      · exact absurd rfl hfr
    simp only [not_exists] at hret hall
    rw [hi.frames_go hg hret hall, State.pcAt_thread] at hfr
    obtain ⟨h1, h2⟩ := hd.off_go hi hg hfr hret
    exact ⟨h1, fun _ => h2⟩
  · by_cases hret : ∃ k, s.pcOf h = .sret k
    · obtain ⟨k', hp⟩ := hret
      rw [hd.frames_sret hp hg] at hk
      split_ifs at hk
      · cases hk
      · exact hd.once t k hk
    by_cases hall : ∃ p i, s.pcOf h = .paAlloc p i
    · obtain ⟨p, i, hp⟩ := hall
      rcases frames_paAlloc hp hg t with he | ⟨-, he⟩ <;> rw [he] at hk
      · exact hd.once t k hk
      · cases hk
    simp only [not_exists] at hret hall
    rw [hi.frames_go hg hret hall] at hk
    exact hd.once t k hk

theorem boot : Handled (boot n) := by
  refine ⟨fun h hf => absurd rfl hf, fun p ia k hp _ => ?_, fun t k hk => ?_⟩
  · cases hp
  · cases t <;> cases hk

end Handled

/-- **In the handler interrupts stay off**, and no thread is interrupted there. -/
theorem handled_reachable {s : State n} (hr : (system n).Reachable s) : Handled s := by
  refine hr.invariant (fun s h0 => ?_) fun s a s' hr hd hs => ?_
  · rw [h0]
    exact Handled.boot
  · have hi := inv_reachable hr
    obtain ⟨g, hg⟩ := hr.watch (fun _ => none) noteFirst
    have hf := firsts_reachable hg
    obtain ⟨hn, -⟩ := hs
    by_cases hc : a.choice = .timer
    · rw [hc] at hn
      exact hd.timer hi hn
    · rw [next_of_ne_timer hc] at hn
      exact hd.go hi (hf.flat hi a.hart) (hf.noRet_of_sie hi) hn

/-- A step brings a process into the handler only by the timer, while it is RUNNING. -/
theorem Handled.entered {s s' : State n} {h : Fin n} {c : Choice} (hd : Handled s) (hi : Inv s)
    (hn : next s h c = some s') {p : Slot} (h0 : (s.tpc p).frames = [])
    (h1 : (s'.tpc p).frames ≠ []) :
    (s.procs p).state = .running ∧ (s'.procs p).state = .running := by
  by_cases hc : c = .timer
  · subst hc
    have ht : Sched.timer s h = some s' := hn
    have hf := timer_frames hi ht (.proc p)
    have hth : s.thread h = .proc p := by
      by_contra hne
      rw [if_neg fun he => hne he.1.symm] at hf
      exact h1 (hf.trans h0)
    obtain ⟨k, -, he, -⟩ := hi.timer_silent ht
    have hsie : (s.cpus h).sie = true := by
      unfold Sched.timer at ht
      split_ifs at ht <;> assumption
    have hrun : (s.procs p).state = .running := by
      unfold State.thread at hth
      split at hth
      · cases hth
      · next q hu =>
        cases hth
        have hl := hi.locks_eq_empty hsie
        rw [s.pcOf_some hu] at hl
        refine (hi.on h p hu).1.1 ?_
        by_contra hpl
        have hm := Pc.mem_locks_of_not_plain (hi.wfT p (hi.on h p hu).2) hpl
        rw [hl] at hm
        cases hm
    refine ⟨hrun, ?_⟩
    rw [he]
    simpa [State.setSie, State.setCpu] using hrun
  · rw [next_of_ne_timer hc] at hn
    exfalso
    by_cases hret : ∃ k, s.pcOf h = .sret k
    · obtain ⟨k, hp⟩ := hret
      have hf := hd.frames_sret hp hn (.proc p)
      split_ifs at hf
      · exact h1 hf
      · exact h1 (hf.trans h0)
    by_cases hall : ∃ q i, s.pcOf h = .paAlloc q i
    · obtain ⟨q, i, hp⟩ := hall
      rcases frames_paAlloc hp hn (.proc p) with he | ⟨-, he⟩
      · exact h1 (he.trans h0)
      · exact h1 (congrArg Pc.frames he)
    simp only [not_exists] at hret hall
    exact h1 ((hi.frames_go hn hret hall (.proc p)).trans h0)

/-- **A process in the handler is live**: it has not exited, and nobody gives its slot away. -/
theorem live_of_frames {s : State n} (hr : (system n).Reachable s) {p : Slot}
    (hp : (s.tpc p).frames ≠ []) : (s.procs p).state.Live := by
  refine hr.invariant (I := fun s => ∀ p, (s.tpc p).frames ≠ [] → (s.procs p).state.Live)
    (fun s h0 p hp => ?_) (fun s a s' hr ih hs p hp => ?_) p hp
  · rw [h0] at hp
    exact absurd rfl hp
  have hi := inv_reachable hr
  obtain ⟨hn, -⟩ := hs
  by_cases h0 : (s.tpc p).frames = []
  · rw [((handled_reachable hr).entered hi hn h0 hp).2]
    simp [ProcState.Live, ProcState.Alive]
  · rcases live_step hi (next_step hn) (ih p h0) with ⟨hl, -⟩ | ⟨st, hz⟩
    · exact hl
    · -- a process that becomes a zombie is in no handler
      have hw := hi.wf a.hart
      rw [hz] at hw
      rw [s.pcOf_some hw] at hz
      rw [hz] at h0
      exact absurd rfl h0

/-! ## User mode -/

/-- Underneath there is no user mode: a trap from there leaves nothing behind. -/
@[simp] def Pc.Inner : Pc → Prop
  | .acq _ k | .rel _ k | .mm k | .trapYield _ k | .sret k | .wakeup _ _ k | .sched k
  | .schedRet _ k | .clockTick k | .wakeCheck _ _ k | .yieldSet _ k | .sleepSet _ _ _ k
  | .sleepWake _ _ k | .release _ _ k => k ≠ .user ∧ Inner k
  | _ => True

section User

variable {s s' : State n} {h : Fin n} {pc k : Pc}

theorem inner_clockintr (hk : k ≠ .user) (hi : k.Inner) :
    clockintr h k ≠ .user ∧ (clockintr h k).Inner := by
  unfold clockintr
  split
  · exact ⟨nofun, nofun, hk, hi⟩
  · exact ⟨hk, hi⟩

/-- User mode is entered at the end of `utrapret`. -/
theorem Silent.inner (hs : Silent s h pc k) (hp : pc.Inner) :
    k.Inner ∧ (k = .user → pc = .utrapret) := by
  cases hs
  case timerUser p _ _ =>
    obtain ⟨h1, h2⟩ := inner_clockintr (h := h) (k := .acq (.proc p) (.yieldSet p .utrapret)) nofun
      ⟨nofun, nofun, trivial⟩
    exact ⟨h2, fun he => absurd he h1⟩
  case timerKernel hu =>
    obtain ⟨h1, h2⟩ := inner_clockintr (h := h) (k := .trapYield (s.cproc h) (.sret pc)) nofun
      ⟨nofun, hu, hp⟩
    exact ⟨h2, fun he => absurd he h1⟩
  all_goals simp_all [failFork, reap]

theorem Update.inner {i : Slot} {q : Proc} (hu : Update s h pc i q k) (hp : pc.Inner) :
    k.Inner ∧ k ≠ .user := by
  cases hu <;> simp_all

/-- A step of the hart keeps it so. -/
theorem inner_step (hs : Step s h s') (hp : ∀ t, (s.pcAt t).Inner) (t : Thread n) :
    (s'.pcAt t).Inner := by
  have hpc : (s.pcOf h).Inner := s.pcAt_thread h ▸ hp (s.thread h)
  have hset : ∀ (s₁ : State n) k, s₁.pcAt = s.pcAt → k.Inner → ((s₁.setPc h k).pcAt t).Inner := by
    intro s₁ k he hk
    rw [State.pcAt_setPc]
    split
    · exact hk
    · rw [he]
      exact hp t
  cases hs with
  | silent hk _ _ _ => exact hset _ _ rfl (hk.inner hpc).1
  | update hu => exact hset _ _ rfl (hu.inner hpc).1
  | acq he _ | rel he _ _ =>
      rw [he] at hpc
      exact hset _ _ rfl hpc.2
  | dispatch _ _ | back _ | panic _ => exact hset _ _ rfl trivial
  | @alloc p i he =>
      rw [State.pcAt_setPc]
      split
      · exact ⟨by simp, trivial⟩
      · cases t with
        | sched h' => exact hp (.sched h')
        | proc q =>
            simp only [State.pcAt, Function.update_apply]
            split
            · trivial
            · exact hp (.proc q)
  | enter he =>
      cases t with
      | sched h' =>
          simp only [State.pcAt, Function.update_apply]
          split
          · trivial
          · exact hp (.sched h')
      | proc q => exact hp (.proc q)
  | leave hl _ _ =>
      cases t with
      | sched h' => exact hp (.sched h')
      | proc q =>
          simp only [State.pcAt, Function.update_apply]
          split
          · rcases hl with he | ⟨_, -, rfl⟩
            · rw [he] at hpc
              exact hpc
            · exact ⟨by simp, trivial⟩
          · exact hp (.proc q)

theorem inner_reachable (hr : (system n).Reachable s) (t : Thread n) : (s.pcAt t).Inner := by
  refine hr.invariant (I := fun s => ∀ t, (s.pcAt t).Inner) (fun s h0 t => ?_) (fun s a s' _ hp hs => ?_) t
  · rw [h0]
    cases t <;> trivial
  · exact inner_step (next_step hs.1) hp

theorem timer_ne_user (ht : timer s h = some s') : s'.pcOf h ≠ .user := by
  unfold timer at ht
  have hne : ∀ k, k ≠ .user → clockintr h k ≠ .user := by
    intro k hk
    unfold clockintr
    split
    · exact nofun
    · exact hk
  split_ifs at ht with hsie hp
  · cases hc : s.cproc h <;> simp only [hc] at ht <;> cases ht <;> rw [State.pcOf_setPc_self]
    · exact nofun
    · exact hne _ nofun
  · cases ht
    rw [State.pcOf_setPc_self]
    exact hne _ nofun

/-- User mode is entered through `utrapret`. -/
theorem user_entered (hr : (system n).Reachable s) {c : Choice} (hn : next s h c = some s')
    (hth : s'.thread h = s.thread h) (hp : s'.pcOf h = .user) : s.pcOf h = .utrapret := by
  have hin : (s.pcOf h).Inner := s.pcAt_thread h ▸ inner_reachable hr (s.thread h)
  cases next_step hn with
  | silent hk _ _ _ =>
      rw [State.pcOf_setPc_self] at hp
      exact (hk.inner hin).2 hp
  | update hu =>
      rw [State.pcOf_setPc_self] at hp
      exact absurd hp (hu.inner hin).2
  | acq he _ | rel he _ _ =>
      rw [State.pcOf_setPc_self] at hp
      rw [he] at hin
      exact absurd hp hin.1
  | dispatch _ _ | back _ | panic _ | alloc _ =>
      rw [State.pcOf_setPc_self] at hp
      cases hp
  | @enter i he =>
      have hu := Inv.cur_eq_none (inv_reachable hr).toRunInv he fun _ => id
      simp [State.thread, hu] at hth
  | leave hl _ _ =>
      obtain ⟨p, hu, -⟩ := hl.locks ((inv_reachable hr).wf h)
      simp [State.thread, hu] at hth

end User

end Wl00.Sched
