import Wl00.Sched.Invariant

/-!
# The scheduling invariant holds in every run

`step_inv` puts the preservation lemmas of the two parts together: every step of
every hart keeps `Inv`, and no step ends in `panic` (`Inv.not_panics`).
`inv_reachable` is the invariant over whole runs.
-/

namespace Wl00.Sched

variable {n : Nat}

namespace Inv

variable {s s' : State n} {h : Fin n}

/-- No check of the source fails. -/
theorem not_panics (hi : Inv s) : ¬Panics s h (s.pcOf h) := by
  intro hp
  have hw := hi.wf h
  have hthread : ∀ p, s.cur h = some p → s.cproc h = some p := fun p hu => (hi.cur h p hu).2
  generalize hpc : s.pcOf h = pc at hp hw
  cases hp with
  | relock l k hl =>
      rw [hi.lock, hpc] at hl
      simp [Pc.locks] at hl
  | unlock l k hl =>
      refine hl ((hi.lock h l).2 ?_)
      rw [hpc]
      simp [Pc.locks]
  | pop l k m hl hm =>
      have hd := hi.depth h
      rw [hpc, Pc.locks, Finset.card_insert_of_notMem hw.2.1] at hd
      obtain ⟨c, hc, -⟩ := Spinlock.popOff_ok (c := s.cpus h) (by omega)
        (by by_contra hs; have := hi.sie h (by simpa using hs); omega)
      rw [hm] at hc
      cases hc
  | user hc =>
      obtain ⟨p, hu⟩ := Option.ne_none_iff_exists'.1 hw
      simp [hthread p hu] at hc
  | yield p k hc =>
      simp [hthread p hw.2.2.2.symm] at hc
  | forkret p hc | wait p _ _ hc | sleepLoop p _ _ hc =>
      simp [hthread p hw] at hc
  | schedNull _ k hl hc =>
      obtain ⟨p, hu, -⟩ := hl.locks hw
      simp [hthread p hu] at hc
  | sched _ k p hl hc hb =>
      obtain ⟨q, hu, hlocks⟩ := hl.locks hw
      obtain rfl : p = q := Option.some.inj (hc.symm.trans (hthread q hu))
      have hd := hi.depth h
      rw [hpc, hlocks, Finset.card_singleton] at hd
      rcases hb with hb | hb | hb | hb
      · refine hb ((hi.lock h _).2 ?_)
        rw [hpc, hlocks]
        exact Finset.mem_singleton_self _
      · exact hb hd
      · have hpl := (hi.on h p hu).1.2 hb
        rw [← s.pcOf_some hu, hpc] at hpl
        exact hl.not_plain hpl
      · simp [hi.sie h hb] at hd
  | release q r k hl =>
      refine hl ((hi.lock h _).2 ?_)
      rw [hpc]
      exact hw.2.spec.2.2.1
  | dead p =>
      -- a zombie is not RUNNING, and a thread that stands here is
      have hu : s.cur h = some p := hw
      rw [s.pcOf_some hu] at hpc
      obtain ⟨hrun, hal⟩ := hi.on h p hu
      have hz := hi.doomed p hal
      rw [hpc] at hrun hz
      rw [hz.1 rfl] at hrun
      simp [Pc.plain] at hrun

theorem setProc_setPc (s : State n) (h : Fin n) (i : Slot) (q : Proc) (k : Pc) :
    (s.setProc i q).setPc h k = (s.setPc h k).setProc i q := by
  unfold State.setPc State.setProc
  cases s.cur h <;> rfl

/-- A slot the thread of hart `h` has claimed is claimed by nobody once that
thread goes on to a point without a claim. -/
theorem unclaimed (hi : Inv s) {i : Slot} {b : Bool} {k : Pc}
    (hc : (s.pcOf h).claims = some (i, b)) (hk : k.claims = none) (p : Slot) (b' : Bool) :
    ((s.setPc h k).tpc p).claims ≠ some (i, b') := by
  obtain ⟨-, -, huniq⟩ := hi.claim_own hc
  rw [s.tpc_setPc]
  split
  · simp [hk]
  · next hne => exact huniq p b' hne

/-- Only NEW slots are claimed. -/
theorem claims_ne (hi : RunInv s) {i : Slot} (hs : (s.procs i).state ≠ .new) (p : Slot)
    (b : Bool) : (s.tpc p).claims ≠ some (i, b) :=
  fun hc => hs (hi.claim p i b hc).1

/-- A claimed slot is on no hart. -/
theorem not_cproc_of_new (hi : Inv s) {i : Slot} (hs : (s.procs i).state = .new) (h' : Fin n) :
    s.cproc h' ≠ some i := by
  intro hc
  cases hu : s.cur h' with
  | some p =>
      obtain rfl : p = i := Option.some.inj ((hi.cur h' p hu).2.symm.trans hc)
      exact (hi.on h' p hu).2.2 hs
  | none =>
      rcases (hi.cproc h' i hu).1 hc with hp | hp
      · simp [(hi.swtch h' i hu hp).1] at hs
      · exact (hi.back h' i hu hp).2.2 hs

theorem runInv_update (hi : Inv s) {i : Slot} {q : Proc} {k : Pc}
    (hu : Update s h (s.pcOf h) i q k) : RunInv ((s.setProc i q).setPc h k) := by
  have hw := hi.wf h
  have hdoom : ∀ p, s.cur h = some p → (s.pcOf h).plain → (s.pcOf h).doomed = false := by
    intro p hp hpl
    have hd := hi.doomed p (hi.on h p hp).2
    rw [s.pcOf_some hp] at hpl ⊢
    rw [(hi.on h p hp).1.1 hpl] at hd
    simpa using hd
  have hoff := fun hl hp hr => hi.not_cproc (h := h) (i := i) hl hp hr
  have hwf := hu.wf hw
  have hframe := fun hp hc => hi.toRunInv.setPc_sameFrame (hu.sameFrame hw hp hc)
  have hclaim : ∀ b, (s.pcOf h).claims = some (i, b) → (s.procs i).state = .new :=
    fun b hb => (hi.claim_own hb).1
  have hzombie := hi.frees h i
  have hdrop := fun b hb hk => hi.unclaimed (h := h) (i := i) (b := b) (k := k) hb hk
  generalize hpc : s.pcOf h = pc at hu hw hdoom hoff hframe hclaim hzombie hdrop
  cases hu with
  | wake c _ k hch hst =>
      have hno := hoff (by simp [Pc.locks]) rfl (by simp [hst])
      have hcur : s.cur h ≠ some i := fun hc => hno h (hi.cur h i hc).2
      have hal : (s.procs i).state.Alive := by simp [hst, ProcState.Alive]
      rw [setProc_setPc]
      refine (hframe rfl (.inr rfl)).setProc_off (by simpa using hno)
        (claims_ne (hframe rfl (.inr rfl)) (by simp [hst])) (by simp) fun _ => ?_
      rw [s.tpc_setPc, if_neg hcur]
      refine ⟨hi.wfT i hal, ?_, by simp [hi.doomed i hal, hst]⟩
      refine (hi.off i (.inr hst)).resolve_left ?_
      rintro ⟨h', hc⟩
      exact hno h' (hi.cur h' i hc).2
  | yield _ k =>
      have ht : s.cur h = some i := hw.2.2.1
      have hd := hdoom i ht rfl
      rw [s.pcOf_some ht] at hpc
      exact hi.park ht (ht ▸ hwf) (by simp [Pc.plain]) (by rw [hpc]; rfl) (by simp)
        (by simp [ProcState.Alive]) (by simpa [Pc.doomed] using hd)
  | sleep _ c lk k =>
      have ht : s.cur h = some i := hw.1
      have hd := hdoom i ht rfl
      rw [s.pcOf_some ht] at hpc
      exact hi.park ht (ht ▸ hwf) (by simp [Pc.plain]) (by rw [hpc]; rfl) (by simp)
        (by simp [ProcState.Alive]) (by simpa [Pc.doomed] using hd)
  | zombie _ st =>
      have ht : s.cur h = some i := hw
      rw [s.pcOf_some ht] at hpc
      exact hi.park ht (ht ▸ hwf) (by simp [Pc.plain]) (by rw [hpc]; rfl) (by simp)
        (by simp [ProcState.Alive]) (by simp [Pc.doomed])
  | claim p _ hst =>
      have hno := hoff (by simp [Pc.locks]) rfl (by simp [hst])
      have hcl := claims_ne hi.toRunInv (i := i) (by simp [hst])
      have ht : s.cur h = some p := hw
      refine (hi.setProc_off hno hcl (by simp) (by simp [ProcState.Alive])).setPc
        (h := h) ?_ ?_ ?_ ?_ ?_
      · simp [State.setProc, ht, Pc.Wf, Pc.locks, Pc.plain, Pc.frees]
      · simp [hpc, Pc.plain]
      · simp [hpc, Pc.plain]
      · simp [hpc, Pc.doomed]
      · rintro j b hj
        obtain ⟨rfl, rfl⟩ : i = j ∧ false = b := by simpa [Pc.claims] using hj
        exact ⟨by simp [State.setProc], by simp, fun p' b' _ => hcl p' b'⟩
  | publish p _ v =>
      have hno := hi.not_cproc_of_new (hclaim true rfl)
      have hcur : s.cur h ≠ some i := fun hc => hno h (hi.cur h i hc).2
      rw [setProc_setPc]
      refine (hframe rfl (.inl rfl)).setProc_off (by simpa using hno)
        (hdrop true rfl rfl) (by simp) fun _ => ?_
      have ht : s.cur h = some p := hw
      rw [s.pcOf_some ht] at hpc
      have htpc := (hi.claim p i true (by rw [hpc]; rfl)).2 rfl
      rw [s.tpc_setPc, if_neg hcur, htpc]
      exact ⟨rfl, .inl rfl, by simp [Pc.doomed]⟩
  | release _ r k hl =>
      rw [setProc_setPc]
      obtain ⟨-, hpl, hlk, -, hcl, -⟩ := hw.2.spec
      have hf := hframe hpl (.inl hcl)
      by_cases hr : ∃ p, r = .fail p
      · obtain ⟨p, rfl⟩ := hr
        exact hf.setProc_off (by simpa using hi.not_cproc_of_new (hclaim false rfl))
          (hdrop false rfl hcl) (by simp [releaseproc])
          (by simp [releaseproc, ProcState.Alive])
      · have hz : (s.procs i).state = .zombie := by
          refine hzombie ?_
          cases r <;> simp_all [Pc.frees]
        exact hf.setProc_off (by simpa using hoff hlk rfl (by simp [hz]))
          (claims_ne hf (by simp [hz])) (by simp [releaseproc])
          (by simp [releaseproc, ProcState.Alive])
  | awake | setPid | handNone | handRelease | hand | handZombie =>
      rw [setProc_setPc]
      exact (hframe rfl (.inr rfl)).setProc_state (by simp)

/-! ## One step of a hart -/

/-- A step of one hart leaves the other harts where they are. -/
theorem pcOf_step (hi : Inv s) (hs : Step s h s') {h' : Fin n} (hh : h' ≠ h) :
    s'.pcOf h' = s.pcOf h' := by
  have hcur : ∀ p, s.cur h = some p → s.cur h' ≠ some p := fun p hp hp' => hh (hi.cur_inj hp' hp)
  have hset : ∀ (s₁ : State n) k, s₁.cur = s.cur → (∀ h'', s₁.pcOf h'' = s.pcOf h'') →
      (s₁.setPc h k).pcOf h' = s.pcOf h' := by
    intro s₁ k hc hp
    rw [State.pcOf_setPc_of_ne _ h k hh (by rwa [hc]), hp]
  cases hs with
  | silent _ _ _ _ | update _ | acq _ _ | rel _ _ _ | dispatch _ _ | back _ | panic _ =>
      exact hset _ _ rfl fun _ => rfl
  | alloc hp =>
      refine hset _ _ rfl fun h'' => ?_
      obtain ⟨hnew, -⟩ := hi.claim_own (h := h) (b := false) (by rw [hp]; rfl)
      cases hu : s.cur h'' with
      | none => simp only [State.pcOf, hu]
      | some p' =>
          simp only [State.pcOf, hu]
          refine Function.update_of_ne ?_ _ _
          rintro rfl
          exact hi.not_cproc_of_new hnew h'' (hi.cur h'' _ hu).2
  | enter hp => simp [State.pcOf, hh]
  | leave hl hc hr =>
      obtain ⟨q, hu, -⟩ := hl.locks (hi.wf h)
      obtain rfl := Option.some.inj ((hi.cur h q hu).2.symm.trans hc)
      cases hu' : s.cur h' with
      | none => simp [State.pcOf, hh, hu']
      | some p' =>
          have hne : p' ≠ q := fun he => hcur q hu (he ▸ hu')
          simp [State.pcOf, hh, hu', hne]

/-- A step changes a slot only under that slot's lock, apart from the pid that
`procalloc` gives to the slot it has claimed. -/
theorem slot_step (hi : Inv s) (hs : Step s h s') {j : Slot}
    (hj : Lock.proc j ∉ (s.pcOf h).locks) : s'.procs j = s.procs j ∨
      (s.procs j).state = .new ∧ ∃ v, s'.procs j = { s.procs j with pid := v } := by
  cases hs with
  | @update i q k hu =>
      by_cases hji : j = i
      · subst hji
        rcases hu.mem_locks (hi.wf h) with hl | ⟨hc, v, rfl⟩
        · exact absurd hl hj
        · exact .inr ⟨(hi.claim_own hc).1, v, by simp [State.setProc]⟩
      · simp [State.setProc, hji]
  | @dispatch i hp _ =>
      have hji : j ≠ i := fun he => hj (by simp [hp, he])
      simp [State.setCproc, State.setProc, hji]
  | _ => simp [State.setCpu, State.setLock, State.setCproc]

theorem state_step (hi : Inv s) (hs : Step s h s') {j : Slot}
    (hj : Lock.proc j ∉ (s.pcOf h).locks) : (s'.procs j).state = (s.procs j).state := by
  rcases hi.slot_step hs hj with he | ⟨-, v, he⟩ <;> rw [he]

theorem pcOf_enter (s : State n) (h : Fin n) (i : Slot) (k : Pc) : ({ s with
    spc := Function.update s.spc h k
    cur := Function.update s.cur h (some i) } : State n).pcOf h = s.tpc i := by
  simp [State.pcOf]

theorem pcOf_leave (s : State n) (h : Fin n) (f : Slot → Pc) : ({ s with
    tpc := f
    cur := Function.update s.cur h none } : State n).pcOf h = s.spc h := by
  simp [State.pcOf]

/-- A point of the scheduler is on the scheduler's stack. -/
theorem cur_eq_none (hi : RunInv s) {pc : Pc} (hp : s.pcOf h = pc)
    (hw : ∀ t, pc.Wf t → t = none) : s.cur h = none := by
  have := hi.wf h
  rw [hp] at this
  exact hw _ this

theorem runInv_step (hi : Inv s) (hs : Step s h s') : RunInv s' := by
  cases hs with
  | silent hk hd _ _ => exact ((hi.setCounters _ _).setCpu _).setPc_sameFrame (hi.sameFrame hk)
  | update hu => exact hi.runInv_update hu
  | @acq l k hp hl =>
      have hw := hi.wf h
      rw [hp] at hw
      obtain ⟨hwk, hpl, -, -⟩ := hw
      refine ((hi.setLock l (some h)).setCpu _).setPc hwk ?_ ?_ ?_ ?_
      · simp [hp, hpl, Pc.plain]
      · simp [hp, Pc.plain]
      · simp [hp, Pc.doomed]
      · exact fun i b hb => hi.claim_own (h := h) (by rw [hp]; exact hb)
  | @rel l k c hp hl hc =>
      have hw := hi.wf h
      rw [hp] at hw
      obtain ⟨hwk, -, hpl⟩ := hw
      refine ((hi.setLock l none).setCpu c).setPc hwk ?_ ?_ ?_ ?_
      · simp [hp, Pc.plain]
      · intro hu
        rcases hpl with hpl | ⟨p, rfl⟩
        · simpa [hp, Pc.plain] using hpl
        · rw [show s.cur h = none from hu] at hwk
          simp [Pc.Wf] at hwk
      · simp [hp, Pc.doomed]
      · exact fun i b hb => hi.claim_own (h := h) (by rw [hp]; exact hb)
  | @alloc p i hp =>
      obtain ⟨hnew, -, huniq⟩ := hi.claim_own (h := h) (i := i) (b := false) (by rw [hp]; rfl)
      have hw := hi.wf h
      have hpi : p ≠ i := by
        rintro rfl
        rw [hp] at hw
        exact hi.not_cproc_of_new hnew h (hi.cur h p hw).2
      have hpc : ({ s with tpc := Function.update s.tpc i (.forkret i) } : State n).pcOf h =
          .paAlloc p i := by
        rw [hp] at hw
        have hu : s.cur h = some p := hw
        rw [s.pcOf_some hu] at hp
        simp [State.pcOf, hu, hpi, hp]
      rw [hp] at hw
      refine (hi.alloc hnew).setPc ⟨hw, rfl, rfl⟩
        (by rw [hpc]; rfl) (by rw [hpc]; exact fun _ => rfl) (by rw [hpc]; rfl) ?_
      intro j b hj
      obtain ⟨rfl, rfl⟩ : i = j ∧ true = b := by simpa [Pc.claims] using hj
      refine ⟨hnew, by simp, fun p' b' hne => ?_⟩
      by_cases hp' : p' = i
      · subst hp'; simp [Pc.claims]
      · simpa [hp'] using huniq p' b' hne
  | @dispatch i hp hst =>
      have hu := cur_eq_none hi.toRunInv hp fun _ => id
      have hno := hi.not_cproc (h := h) (i := i) (by simp [hp, Pc.locks]) (by rw [hp]; rfl) (by simp [hst])
      rw [s.pcOf_none hu] at hp
      exact hi.dispatch hu hp hst hno rfl
  | enter hp =>
      have hu := cur_eq_none hi.toRunInv hp fun _ => id
      rw [s.pcOf_none hu] at hp
      exact hi.enter hu hp
  | @leave p k hl hc hr =>
      obtain ⟨q, hu, -⟩ := hl.locks (hi.wf h)
      obtain rfl : q = p := Option.some.inj ((hi.cur h q hu).2.symm.trans hc)
      have hw := hi.wf h
      rw [hu] at hw
      have hk : (Pc.schedRet (s.cpus h).intena k).Wf (some q) ∧
          k.claims = (s.pcOf h).claims ∧ k.doomed = (s.pcOf h).doomed := by
        rcases hl with he | ⟨p', he, rfl⟩ <;> rw [he] at hw ⊢
        · exact ⟨hw, rfl, rfl⟩
        · exact ⟨⟨hw, rfl, by simp, rfl, p', hw, rfl⟩, rfl, rfl⟩
      rw [s.pcOf_some hu] at hk
      exact hi.leave hu hk.1 hk.2.1 hk.2.2 hr
  | back hp =>
      have hu := cur_eq_none hi.toRunInv hp fun _ => id
      rw [s.pcOf_none hu] at hp
      exact hi.clearCproc hu hp
  | panic hp => exact absurd hp hi.not_panics

theorem lockInv_step (hi : Inv s) (hs : Step s h s') : LockInv s' := by
  -- where neither a lock nor the nesting changes, only the hart's own point counts
  have hsame : s'.locks = s.locks → s'.cpus = s.cpus →
      (s'.pcOf h).locks = (s.pcOf h).locks → LockInv s' := by
    intro hl hc hp
    refine hi.toLockInv.of_eq hl (by simp [hc]) (by simpa [hc] using hi.sie) fun h' => ?_
    by_cases hh : h' = h
    · subst hh; exact hp
    · rw [hi.pcOf_step hs hh]
  have hw := hi.wf h
  cases hs with
  | @silent k c pid t hk hd hsie _ =>
      have hr := (hi.setCounters pid t).setCpu (h := h) c
      have hl : LockInv { s with currPid := pid, ticks := t } := ⟨hi.lock, hi.depth, hi.sie⟩
      refine (hl.setCpu (h := h) hd fun hc => ?_).setPc hr (hi.sameFrame hk).locks
      -- interrupts come on only where no lock is held
      have hdep := hi.depth h
      rw [hd]
      rcases hsie hc with h1 | h1 | h1 | h1 | h1
      · exact hi.sie h h1
      all_goals rw [h1] at hdep hw
      · simpa [Pc.locks] using hdep
      · simpa [Pc.locks] using hdep
      · simpa [Pc.locks] using hdep
      · simpa [Pc.locks, hw.2.2] using hdep
  | update hu =>
      refine hsame ?_ ?_ ?_
      · simp [State.setProc]
      · simp [State.setProc]
      · rw [State.pcOf_setPc_self, hu.locks_eq hw]
  | acq hp hl => exact hi.toLockInv.acq hi.toRunInv hp hl
  | rel hp hl hc => exact hi.toLockInv.rel hi.toRunInv hp hl hc
  | alloc hp => exact hsame (by simp) (by simp) (by rw [State.pcOf_setPc_self, hp]; rfl)
  | dispatch hp hst =>
      refine hsame ?_ ?_ ?_
      · simp [State.setCproc, State.setProc]
      · simp [State.setCproc, State.setProc]
      · rw [State.pcOf_setPc_self, hp]; rfl
  | @enter i hp =>
      refine hsame rfl rfl ?_
      have hu := cur_eq_none hi.toRunInv hp fun _ => id
      rw [pcOf_enter, hp]
      rw [s.pcOf_none hu] at hp
      obtain ⟨hrun, hres⟩ := hi.swtch h i hu hp
      exact hres.locks (hi.wfT i (by simp [hrun, ProcState.Alive]))
  | @leave p k hl hc hr =>
      obtain ⟨q, hu, hlocks⟩ := hl.locks hw
      refine hsame rfl rfl ?_
      rw [pcOf_leave, (hi.cur h q hu).1, hlocks]
      rfl
  | back hp =>
      refine hsame ?_ ?_ ?_
      · simp [State.setCproc]
      · simp [State.setCproc]
      · rw [State.pcOf_setPc_self, hp]; rfl
  | panic hp => exact absurd hp hi.not_panics

theorem frees_step (hi : Inv s) (hs : Step s h s') (h' : Fin n) (j : Slot)
    (hj : (s'.pcOf h').frees = some j) : (s'.procs j).state = .zombie := by
  have hw := hi.wf h
  by_cases hh : h' = h
  · subst hh
    have hold := hi.frees h' j
    cases hs with
    | silent hk _ _ _ =>
        rw [State.pcOf_setPc_self] at hj
        rcases hk.frees hj with hj | hj
        · simpa [State.setCpu] using hold hj
        · simpa [State.setCpu] using hj
    | update hu =>
        rw [State.pcOf_setPc_self] at hj
        obtain ⟨rfl, hz⟩ := hu.frees hw hj
        simpa [State.setProc] using hz
    | acq hp _ | rel hp _ _ =>
        rw [State.pcOf_setPc_self] at hj
        rw [hp] at hold
        simpa [State.setCpu, State.setLock] using hold hj
    | alloc hp | dispatch hp _ | back hp =>
        rw [State.pcOf_setPc_self] at hj
        cases hj
    | @enter i hp =>
        have hu := cur_eq_none hi.toRunInv hp fun _ => id
        rw [s.pcOf_none hu] at hp
        obtain ⟨hrun, hres⟩ := hi.swtch h' i hu hp
        have hwi := hi.wfT i (by simp [hrun, ProcState.Alive])
        rw [pcOf_enter] at hj
        rw [hres.frees hwi] at hj
        cases hj
    | @leave p k hl hc hr =>
        obtain ⟨q, hu, -⟩ := hl.locks hw
        rw [pcOf_leave, (hi.cur h' q hu).1] at hj
        cases hj
    | panic hp => exact absurd hp hi.not_panics
  · rw [hi.pcOf_step hs hh] at hj
    have hl := Pc.mem_locks_of_frees (hi.wf h') hj
    rw [hi.state_step hs fun hl' => hh (hi.lock_inj hl hl')]
    exact hi.frees h' j hj

end Inv

/-- **Every step of every hart keeps the invariant.** -/
theorem step_inv {s s' : State n} {h : Fin n} (hi : Inv s) (hs : Step s h s') : Inv s' :=
  ⟨hi.runInv_step hs, hi.lockInv_step hs, hi.frees_step hs⟩

/-- A step, seen from the slots and from the point of the hart that makes it. -/
inductive Move (s : State n) (h : Fin n) : Pc → (Slot → Proc) → Pc → Prop
  | silent {pc k : Pc} : Silent s h pc k → Move s h pc s.procs k
  | update {pc k : Pc} {i : Slot} {q : Proc} : Update s h pc i q k →
      Move s h pc (Function.update s.procs i q) k
  | acq (l k) : s.locks l = none → Move s h (.acq l k) s.procs k
  | rel (l k) : Move s h (.rel l k) s.procs k
  | alloc (p i) : Move s h (.paAlloc p i) s.procs (.mm (.forkCopy p i))
  | dispatch (i) : (s.procs i).state = .ready → Move s h (.schedCheck i)
      (Function.update s.procs i { s.procs i with state := .running }) (.schedSwtch i)
  | enter (i) {k : Pc} : k.Wf (some i) → k.Resumable i → Move s h (.schedSwtch i) s.procs k
  | leave {pc k : Pc} (p) : Leaves pc k → pc.Wf (some p) → Move s h pc s.procs (.schedBack p)
  | back (i) : Move s h (.schedBack i) s.procs (.schedReap i)

theorem Inv.move {s s' : State n} {h : Fin n} (hi : Inv s) (hs : Step s h s') :
    ∃ pc procs k, s.pcOf h = pc ∧ s'.procs = procs ∧ s'.pcOf h = k ∧ Move s h pc procs k := by
  refine ⟨_, _, _, rfl, rfl, rfl, ?_⟩
  cases hs with
  | silent hk _ _ _ => simpa [State.setCpu] using Move.silent hk
  | update hu => simpa [State.setProc] using Move.update hu
  | acq hp hl => simpa [State.setCpu, State.setLock, hp] using Move.acq _ _ hl
  | rel hp _ _ => simpa [State.setCpu, State.setLock, hp] using Move.rel _ _
  | alloc hp => simpa [hp] using Move.alloc _ _
  | dispatch hp hst => simpa [State.setCproc, State.setProc, hp] using Move.dispatch _ hst
  | @enter i hp =>
      have hu := Inv.cur_eq_none hi.toRunInv hp fun _ => id
      rw [Inv.pcOf_enter, hp]
      rw [s.pcOf_none hu] at hp
      obtain ⟨hrun, hres⟩ := hi.swtch h i hu hp
      exact .enter i (hi.wfT i (by simp [hrun, ProcState.Alive])) hres
  | @leave p k hl hc hr =>
      obtain ⟨q, hu, hlocks⟩ := hl.locks (hi.wf h)
      rw [Inv.pcOf_leave, (hi.cur h q hu).1]
      exact .leave q hl (hu ▸ hi.wf h)
  | back hp => simpa [State.setCproc, hp] using Move.back _
  | panic hp => exact absurd hp hi.not_panics

/-- No timer interrupt comes while a lock is held. -/
theorem Inv.choice_ne_timer {s s' : State n} {h : Fin n} {c : Choice} {l : Lock} (hi : Inv s)
    (hn : next s h c = some s') (hl : l ∈ (s.pcOf h).locks) : c ≠ .timer := by
  rintro rfl
  simp only [next, timer] at hn
  split at hn
  · next hs =>
    rw [hi.locks_eq_empty hs] at hl
    simp at hl
  · cases hn

/-- What a step does to a slot: nothing, a change made by the hart's thread, or
the dispatch of its process. -/
theorem Inv.proc_step {s s' : State n} {h : Fin n} (hi : Inv s) (hs : Step s h s') (x : Slot) :
    s'.procs x = s.procs x ∨ Update s h (s.pcOf h) x (s'.procs x) (s'.pcOf h) ∨
      (s.pcOf h = .schedCheck x ∧ (s.procs x).state = .ready ∧
        s'.procs x = { s.procs x with state := .running }) := by
  obtain ⟨pc, procs, k, hpc, hprocs, hk, hm⟩ := hi.move hs
  rw [hprocs, hk, hpc]
  cases hm with
  | @update _ _ i q hu =>
      by_cases hx : x = i
      · subst hx
        rw [Function.update_self]
        exact .inr (.inl hu)
      · exact .inl (Function.update_of_ne hx _ _)
  | dispatch i hst =>
      by_cases hx : x = i
      · subst hx
        exact .inr (.inr ⟨rfl, hst, Function.update_self _ _ _⟩)
      · exact .inl (Function.update_of_ne hx _ _)
  | _ => exact .inl rfl

/-- A move of a process on its own stack; with `swtch` to the scheduler it leaves
the context to resume at. -/
inductive ThreadMove (s : State n) (h : Fin n) : Pc → (Slot → Proc) → Pc → Prop
  | silent {pc k : Pc} : Silent s h pc k → ThreadMove s h pc s.procs k
  | update {pc k : Pc} (i q) : Update s h pc i q k →
      ThreadMove s h pc (Function.update s.procs i q) k
  | acq (l k) : ThreadMove s h (.acq l k) s.procs k
  | rel (l k) : ThreadMove s h (.rel l k) s.procs k
  | alloc (p i) : ThreadMove s h (.paAlloc p i) s.procs (.mm (.forkCopy p i))
  | leave {pc k : Pc} (ia) : Leaves pc k → ThreadMove s h pc s.procs (.schedRet ia k)

theorem Move.thread {s : State n} {h : Fin n} {pc k : Pc} {procs : Slot → Proc} {p : Slot}
    (hm : Move s h pc procs k) (hw : pc.Wf (some p)) (hw' : k.Wf (some p)) :
    ThreadMove s h pc procs k := by
  cases hm with
  | silent hk => exact .silent hk
  | update hu => exact .update _ _ hu
  | acq l k _ => exact .acq l k
  | rel l k => exact .rel l k
  | alloc p i => exact .alloc p i
  | leave p hl _ => cases hw'
  | enter | dispatch | back => cases hw

/-- The thread on whose stack a hart stands makes a move of its own. -/
theorem Inv.tpc_step_self {s s' : State n} {h : Fin n} (hi : Inv s) (hs : Step s h s') {p : Slot}
    (hu : s.cur h = some p) : ThreadMove s h (s.tpc p) s'.procs (s'.tpc p) := by
  -- a hart that stays on its stack is at the point of that stack's thread
  have hown : s'.cur h = s.cur h → ThreadMove s h (s.tpc p) s'.procs (s'.tpc p) := by
    intro hc
    have hw := hi.wf h
    have hw' := (step_inv hi hs).wf h
    obtain ⟨pc, procs, k, hpc, hprocs, hk, hm⟩ := hi.move hs
    rw [hpc, hu] at hw
    rw [hk, hc, hu] at hw'
    rw [s.pcOf_some hu] at hpc
    rw [s'.pcOf_some (hc.trans hu)] at hk
    rw [hpc, hk, hprocs]
    exact hm.thread hw hw'
  cases hs with
  | silent _ _ _ _ | update _ | acq _ _ | rel _ _ _ | alloc _ | dispatch _ _ | back _ | panic _ =>
      exact hown (congrFun (State.cur_setPc ..) h)
  | enter hp =>
      rw [Inv.cur_eq_none hi.toRunInv hp fun _ => id] at hu
      cases hu
  | @leave q k hl hc hr =>
      obtain rfl : p = q := Option.some.inj ((hi.cur h p hu).2.symm.trans hc)
      rw [s.pcOf_some hu] at hl
      simpa using ThreadMove.leave (s.cpus h).intena hl

/-- The thread of another stack stays where it is, unless `procalloc` writes its first
context. -/
theorem Inv.tpc_step_other {s s' : State n} {h : Fin n} (hi : Inv s) (hs : Step s h s') {p : Slot}
    (hu : s.cur h ≠ some p) :
    s'.tpc p = s.tpc p ∨ (∃ q, s.pcOf h = .paAlloc q p) ∧ s'.tpc p = .forkret p := by
  cases hs with
  | silent _ _ _ _ | update _ | acq _ _ | rel _ _ _ | dispatch _ _ | back _ | panic _ =>
      exact .inl ((State.tpc_setPc ..).trans (if_neg hu))
  | @alloc p' i hp =>
      by_cases hpi : p = i
      · subst hpi
        exact .inr ⟨⟨p', hp⟩, by simp [State.tpc_setPc, hu]⟩
      · exact .inl (by simp [State.tpc_setPc, hu, hpi])
  | enter hp => exact .inl rfl
  | @leave q k hl hc hr =>
      obtain ⟨q', hu', -⟩ := hl.locks (hi.wf h)
      obtain rfl : q' = q := Option.some.inj ((hi.cur h q' hu').2.symm.trans hc)
      have hne : p ≠ q' := fun he => hu (he ▸ hu')
      exact .inl (by simp [hne])

/-- What a step does to the thread of a slot: nothing, a move of that thread, or
the context that `procalloc` writes. -/
theorem Inv.tpc_step {s s' : State n} {h : Fin n} (hi : Inv s) (hs : Step s h s') (p : Slot) :
    s'.tpc p = s.tpc p ∨
      (s.cur h = some p ∧ ThreadMove s h (s.tpc p) s'.procs (s'.tpc p)) ∨
      (∃ q, s.pcOf h = .paAlloc q p) ∧ s'.tpc p = .forkret p := by
  by_cases hu : s.cur h = some p
  · exact .inr (.inl ⟨hu, hi.tpc_step_self hs hu⟩)
  · exact (hi.tpc_step_other hs hu).imp_right .inr

/-- A process comes to life when `fork` publishes it. -/
theorem Inv.alive_step {s s' : State n} {h : Fin n} (hi : Inv s) (hs : Step s h s') {x : Slot}
    (ha : (s'.procs x).state.Alive) :
    (s.procs x).state.Alive ∨ ∃ p v, s.pcOf h = .forkPublish p x v := by
  rcases hi.proc_step hs x with he | hu | ⟨-, hst, -⟩
  · exact .inl (he ▸ ha)
  · have hw := hi.wf h
    have hon := fun hu => (hi.on h x hu).2
    generalize s.pcOf h = pc at hu hw
    generalize s'.procs x = q at hu ha
    generalize s'.pcOf h = k at hu
    cases hu with
    | publish p _ v => exact .inr ⟨p, v, rfl⟩
    | claim | release => exact absurd ha (by simp [ProcState.Alive, releaseproc])
    | wake c _ k _ hst => exact .inl (by simp [hst, ProcState.Alive])
    | yield _ k => exact .inl (hon hw.2.2.1)
    | sleep _ c lk k => exact .inl (hon hw.1)
    | zombie _ st => exact .inl (hon hw)
    | _ => exact .inl ha
  · exact .inl (by simp [hst, ProcState.Alive])

theorem inv_boot : Inv (boot n) := by
  refine ⟨⟨fun _ => rfl, fun p _ => rfl, ?_, ?_, ?_, ?_, ?_, ?_, ?_, ?_, ?_, ?_, ?_⟩, ⟨?_, ?_, ?_⟩, ?_⟩
  all_goals simp [boot, State.pcOf, Pc.locks, Pc.claims, Pc.frees, Pc.doomed, Pc.Resumable]
  all_goals intro p; split <;> simp

/-- **The invariant holds in every state that any interleaving reaches.** -/
theorem inv_reachable {s : State n} (hr : (system n).Reachable s) : Inv s := by
  refine hr.invariant ?_ ?_
  · rintro _ rfl
    exact inv_boot
  · rintro s a s' - hi ⟨hn, -⟩
    exact step_inv hi (next_step hn)

end Wl00.Sched
