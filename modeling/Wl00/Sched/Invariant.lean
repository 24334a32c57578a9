import Wl00.Sched.Points

/-!
# The scheduling invariant

What holds in every reachable state of any number of harts: the locks a hart
holds are those its program point says it holds, a process is on at most one
hart, and the hand-over of `p->lock` between a process and a scheduler goes
through the points at which both know who stands on the kernel stack.

The invariant comes in two parts.  `RunInv` says which thread is where and
never mentions a lock; `LockInv` says who holds what.  Each effect of a step
(`Step`) has its preservation lemma for each part.
-/

namespace Wl00.Sched

variable {n : Nat}

/-- Neither free nor being set up. -/
def ProcState.Alive (x : ProcState) : Prop := x ≠ .unused ∧ x ≠ .new

/-- Which thread is where. -/
structure RunInv (s : State n) : Prop where
  wfS : ∀ h, (s.spc h).Wf none
  wfT : ∀ p, (s.procs p).state.Alive → (s.tpc p).Wf (some p)
  /-- A hart on a process's stack has left its scheduler in `swtch`. -/
  cur : ∀ h p, s.cur h = some p → s.spc h = .schedBack p ∧ s.cproc h = some p
  /-- A scheduler has a process in `cpu->proc` only around `swtch`. -/
  cproc : ∀ h p, s.cur h = none →
    (s.cproc h = some p ↔ s.spc h = .schedSwtch p ∨ s.spc h = .schedBack p)
  uniq : ∀ h h' p, s.cproc h = some p → s.cproc h' = some p → h = h'
  running : ∀ p, (s.procs p).state = .running → ∃ h, s.cproc h = some p
  /-- On its stack a process is RUNNING until it has changed its state on the
  way to `swtch`. -/
  on : ∀ h p, s.cur h = some p →
    ((s.tpc p).plain ↔ (s.procs p).state = .running) ∧ (s.procs p).state.Alive
  swtch : ∀ h p, s.cur h = none → s.spc h = .schedSwtch p →
    (s.procs p).state = .running ∧ (s.tpc p).Resumable p
  back : ∀ h p, s.cur h = none → s.spc h = .schedBack p →
    (s.procs p).state ≠ .running ∧ (s.procs p).state.Alive
  off : ∀ p, (s.procs p).state = .ready ∨ (s.procs p).state = .waiting →
    (∃ h, s.cur h = some p) ∨ (s.tpc p).Resumable p
  /-- A zombie is past `kexit`'s last change of its state, and nobody else is. -/
  doomed : ∀ p, (s.procs p).state.Alive → ((s.tpc p).doomed ↔ (s.procs p).state = .zombie)
  /-- A claimed slot is NEW, and has one claimant. -/
  claim : ∀ p i b, (s.tpc p).claims = some (i, b) →
    (s.procs i).state = .new ∧ (b → s.tpc i = .forkret i)
  claimUniq : ∀ p p' i b b', (s.tpc p).claims = some (i, b) → (s.tpc p').claims = some (i, b') →
    p = p'

/-- Who holds what. -/
structure LockInv (s : State n) : Prop where
  lock : ∀ h l, s.locks l = some h ↔ l ∈ (s.pcOf h).locks
  depth : ∀ h, (s.cpus h).depth = (s.pcOf h).locks.card
  sie : ∀ h, (s.cpus h).sie = true → (s.cpus h).depth = 0

/-- What every interleaving of any number of harts keeps. -/
structure Inv (s : State n) : Prop extends RunInv s, LockInv s where
  /-- What `releaseproc` resets is a zombie, or a slot nobody else knows of. -/
  frees : ∀ h q, (s.pcOf h).frees = some q → (s.procs q).state = .zombie

/-! ## Consequences -/

namespace RunInv

variable {s : State n} {h : Fin n}

theorem wf (hi : RunInv s) (h : Fin n) : (s.pcOf h).Wf (s.cur h) := by
  cases hc : s.cur h with
  | none => rw [s.pcOf_none hc]; exact hi.wfS h
  | some p => rw [s.pcOf_some hc]; exact hi.wfT p (hi.on h p hc).2

/-- Two harts are never on one stack. -/
theorem cur_inj (hi : RunInv s) {h h' : Fin n} {p : Slot} (hp : s.cur h = some p)
    (hp' : s.cur h' = some p) : h = h' :=
  hi.uniq h h' p (hi.cur h p hp).2 (hi.cur h' p hp').2

theorem pcOf_setPc_ne (hi : RunInv s) {h h' : Fin n} (hne : h' ≠ h) (k : Pc) :
    (s.setPc h k).pcOf h' = s.pcOf h' :=
  s.pcOf_setPc_of_ne h k hne fun _ hp hp' => hne (hi.cur_inj hp' hp)

/-- A process in some `cpu->proc` that is not RUNNING is being handed over: that
hart is at a point that holds its lock. -/
theorem mem_locks_of_cproc (hi : RunInv s) {p : Slot} (hc : s.cproc h = some p)
    (hr : (s.procs p).state ≠ .running) : .proc p ∈ (s.pcOf h).locks := by
  cases hu : s.cur h with
  | none =>
      rw [s.pcOf_none hu]
      rcases (hi.cproc h p hu).1 hc with hs | hs <;> simp [hs, Pc.locks]
  | some q =>
      obtain rfl : q = p := Option.some.inj ((hi.cur h q hu).2.symm.trans hc)
      rw [s.pcOf_some hu]
      refine Pc.mem_locks_of_not_plain (hi.wfT q (hi.on h q hu).2) ?_
      rw [(hi.on h q hu).1]
      exact hr

end RunInv

namespace Inv

variable {s : State n} {h : Fin n}

theorem locks_eq_empty (hi : Inv s) (hs : (s.cpus h).sie = true) : (s.pcOf h).locks = ∅ := by
  have hd := hi.depth h
  rw [hi.sie h hs] at hd
  exact Finset.card_eq_zero.1 (by exact_mod_cast hd.symm)

/-- With interrupts on, `cpu->proc` is the process whose stack the hart is on. -/
theorem cproc_of_sie (hi : Inv s) (hs : (s.cpus h).sie = true) : s.cproc h = s.cur h := by
  cases hc : s.cur h with
  | some p => exact (hi.cur h p hc).2
  | none =>
      have hl := hi.locks_eq_empty hs
      rw [s.pcOf_none hc] at hl
      rcases ho : s.cproc h with - | p
      · rfl
      · rcases (hi.cproc h p hc).1 ho with hp | hp <;> simp [hp, Pc.locks] at hl

theorem sameFrame (hi : Inv s) {k : Pc} (hk : Silent s h (s.pcOf h) k) :
    SameFrame (s.cur h) (s.pcOf h) k :=
  hk.sameFrame (hi.wf h) (fun p hp => (hi.cur h p hp).2)
    fun hs => ⟨hi.locks_eq_empty hs, hi.cproc_of_sie hs⟩

/-- Two harts do not hold one lock. -/
theorem lock_inj (hi : Inv s) {h h' : Fin n} {l : Lock} (hl : l ∈ (s.pcOf h).locks)
    (hl' : l ∈ (s.pcOf h').locks) : h = h' := by
  have h1 := (hi.lock h l).2 hl
  rw [(hi.lock h' l).2 hl'] at h1
  exact (Option.some.inj h1).symm

/-- A slot that is not RUNNING and whose lock is held at a plain point is on no
hart: nobody is handing it over. -/
theorem not_cproc (hi : Inv s) {i : Slot} (hl : .proc i ∈ (s.pcOf h).locks)
    (hp : (s.pcOf h).plain) (hr : (s.procs i).state ≠ .running) (h' : Fin n) :
    s.cproc h' ≠ some i := by
  intro hc
  obtain rfl := hi.lock_inj hl (hi.mem_locks_of_cproc hc hr)
  cases hu : s.cur h with
  | none =>
      rw [s.pcOf_none hu] at hp
      rcases (hi.cproc h i hu).1 hc with hs | hs <;> simp [hs, Pc.plain] at hp
  | some q =>
      obtain rfl : q = i := Option.some.inj ((hi.cur h q hu).2.symm.trans hc)
      rw [s.pcOf_some hu] at hp
      exact hr ((hi.on h q hu).1.1 hp)

end Inv

/-! ## Preservation: which thread is where -/

namespace RunInv

variable {s : State n} {h : Fin n}

/-- A hart moves on to a point of its thread that claims nothing new. -/
theorem setPc (hi : RunInv s) {k : Pc} (hw : k.Wf (s.cur h)) (hp : k.plain = (s.pcOf h).plain)
    (hp' : s.cur h = none → (s.pcOf h).plain) (hdoom : k.doomed = (s.pcOf h).doomed)
    (hc : ∀ i b, k.claims = some (i, b) → (s.procs i).state = .new ∧ (b → s.tpc i = .forkret i) ∧
      ∀ p b', s.cur h ≠ some p → (s.tpc p).claims ≠ some (i, b')) : RunInv (s.setPc h k) := by
  have hcur : ∀ p, s.cur h = some p → s.pcOf h = s.tpc p := fun p hp => s.pcOf_some hp
  have hnone : s.cur h = none → s.pcOf h = s.spc h := fun hp => s.pcOf_none hp
  obtain ⟨h1, h2, h3, h4, h5, h6, h7, h8, h9, h10, hd, h11, h12⟩ := hi
  constructor <;> simp only [State.procs_setPc, State.cproc_setPc, State.cur_setPc,
    State.tpc_setPc, State.spc_setPc]
  · intro h'
    split
    · next hh => rw [← hh.1]; exact hw
    · exact h1 h'
  · intro p hp
    split
    · next hh => rw [← hh]; exact hw
    · exact h2 p hp
  · grind [Pc.plain]
  · grind [Pc.plain]
  · exact h5
  · exact h6
  · grind
  · grind [Pc.plain]
  · grind [Pc.plain]
  · grind
  · grind
  · grind [ProcState.Alive]
  · grind

/-- What a thread claims is claimed by nobody else. -/
theorem claim_own (hi : RunInv s) {i : Slot} {b : Bool} (hb : (s.pcOf h).claims = some (i, b)) :
    (s.procs i).state = .new ∧ (b → s.tpc i = .forkret i) ∧
      ∀ p b', s.cur h ≠ some p → (s.tpc p).claims ≠ some (i, b') := by
  cases hu : s.cur h with
  | none =>
      rw [s.pcOf_none hu, Pc.claims_of_wf_none (hi.wfS h)] at hb
      cases hb
  | some p =>
      rw [s.pcOf_some hu] at hb
      obtain ⟨hnew, hfork⟩ := hi.claim p i b hb
      exact ⟨hnew, hfork, fun q b' hq hq' => hq (by rw [hi.claimUniq p q i b b' hb hq'])⟩

theorem setPc_sameFrame (hi : RunInv s) {k : Pc} (hf : SameFrame (s.cur h) (s.pcOf h) k) :
    RunInv (s.setPc h k) := by
  refine hi.setPc hf.wf (hf.plain.trans hf.plain'.symm) (fun _ => hf.plain') hf.doomed ?_
  intro i b hb
  obtain ⟨b', hb', hbb⟩ := hf.claims i b hb
  obtain ⟨hnew, hfork, huniq⟩ := hi.claim_own hb'
  exact ⟨hnew, fun hbt => hfork (hbb hbt), huniq⟩

/-- A slot keeps its state. -/
theorem setProc_state (hi : RunInv s) {i : Slot} {q : Proc} (hq : q.state = (s.procs i).state) :
    RunInv (s.setProc i q) := by
  have hst : ∀ p, (Function.update s.procs i q p).state = (s.procs p).state := by
    intro p
    by_cases hp : p = i
    · subst hp; simpa using hq
    · simp [hp]
  obtain ⟨h1, h2, h3, h4, h5, h6, h7, h8, h9, h10, hd, h11, h12⟩ := hi
  constructor <;> simp only [State.setProc, hst] <;> assumption

/-- A slot that is in no `cpu->proc` and that nobody claims changes its state. -/
theorem setProc_off (hi : RunInv s) {i : Slot} {q : Proc} (hc : ∀ h, s.cproc h ≠ some i)
    (hcl : ∀ p b, (s.tpc p).claims ≠ some (i, b)) (hr : q.state ≠ .running)
    (hw : q.state.Alive → (s.tpc i).Wf (some i) ∧ (s.tpc i).Resumable i ∧
      ((s.tpc i).doomed ↔ q.state = .zombie)) :
    RunInv (s.setProc i q) := by
  have hcur : ∀ h, s.cur h ≠ some i := fun h hu => hc h (hi.cur h i hu).2
  obtain ⟨h1, h2, h3, h4, h5, h6, h7, h8, h9, h10, hd, h11, h12⟩ := hi
  constructor <;> simp only [State.setProc, Function.update_apply]
  · exact h1
  · grind
  · exact h3
  · exact h4
  · exact h5
  · grind
  · grind
  · grind
  · grind
  · grind [ProcState.Alive]
  · grind
  · grind
  · exact h12

/-- A process changes its own state on the way to `swtch`. -/
theorem park (hi : RunInv s) {p : Slot} {q : Proc} {k : Pc} (hu : s.cur h = some p)
    (hw : k.Wf (some p)) (hk : ¬k.plain) (hcl : k.claims = (s.tpc p).claims)
    (hr : q.state ≠ .running) (ha : q.state.Alive) (hdoom : k.doomed ↔ q.state = .zombie) :
    RunInv ((s.setProc p q).setPc h k) := by
  obtain ⟨h1, h2, h3, h4, h5, h6, h7, h8, h9, h10, hd, h11, h12⟩ := hi
  constructor <;> simp only [State.procs_setPc, State.cproc_setPc, State.cur_setPc,
    State.tpc_setPc, State.spc_setPc, State.setProc, Function.update_apply, hu]
  · simpa using h1
  · grind
  · simpa using h3
  · simpa using h4
  · exact h5
  · grind
  · grind
  · grind
  · grind
  · grind
  · grind
  · grind [ProcState.Alive]
  · grind

/-- `procalloc` writes the context of the slot it has claimed. -/
theorem alloc (hi : RunInv s) {i : Slot} (hs : (s.procs i).state = .new) :
    RunInv { s with tpc := Function.update s.tpc i (.forkret i) } := by
  obtain ⟨h1, h2, h3, h4, h5, h6, h7, h8, h9, h10, hd, h11, h12⟩ := hi
  constructor <;> simp only [Function.update_apply]
  · exact h1
  · grind [ProcState.Alive]
  · exact h3
  · exact h4
  · exact h5
  · exact h6
  · grind [ProcState.Alive]
  · grind
  · exact h9
  · grind
  · grind [ProcState.Alive]
  · grind [Pc.claims]
  · grind [Pc.claims]

/-- The scheduler takes a READY process. -/
theorem dispatch (hi : RunInv s) {i : Slot} (hu : s.cur h = none)
    (hpc : s.spc h = .schedCheck i) (hs : (s.procs i).state = .ready)
    (hc : ∀ h, s.cproc h ≠ some i) {q : Proc} (hq : q.state = .running) :
    RunInv (((s.setProc i q).setCproc h (some i)).setPc h (.schedSwtch i)) := by
  have hres : (s.tpc i).Resumable i := by
    rcases hi.off i (.inl hs) with ⟨h', hu'⟩ | hres
    · exact absurd (hi.cur h' i hu').2 (hc h')
    · exact hres
  obtain ⟨h1, h2, h3, h4, h5, h6, h7, h8, h9, h10, hd, h11, h12⟩ := hi
  constructor <;> simp only [State.procs_setPc, State.cproc_setPc, State.cur_setPc,
    State.tpc_setPc, State.spc_setPc, State.setProc, State.setCproc, Function.update_apply, hu]
  · grind [Pc.Wf]
  · grind [ProcState.Alive]
  · grind
  · grind
  · grind
  · grind
  · grind
  · grind
  · grind
  · grind
  · grind [ProcState.Alive]
  · grind
  · grind

/-- `swtch` onto the stack of a process. -/
theorem enter (hi : RunInv s) {i : Slot} (hu : s.cur h = none) (hpc : s.spc h = .schedSwtch i) :
    RunInv { s with
      spc := Function.update s.spc h (.schedBack i)
      cur := Function.update s.cur h (some i) } := by
  obtain ⟨hrun, hres⟩ := hi.swtch h i hu hpc
  have hpl := hres.plain
  obtain ⟨h1, h2, h3, h4, h5, h6, h7, h8, h9, h10, hd, h11, h12⟩ := hi
  constructor <;> simp only [Function.update_apply]
  · grind [Pc.Wf]
  · exact h2
  · grind
  · grind
  · exact h5
  · exact h6
  · grind [ProcState.Alive]
  · grind
  · grind
  · grind
  · exact hd
  · exact h11
  · exact h12

/-- `swtch` back to the scheduler. -/
theorem leave (hi : RunInv s) {p : Slot} {k : Pc} {ia : Bool} (hu : s.cur h = some p)
    (hw : (Pc.schedRet ia k).Wf (some p)) (hcl : k.claims = (s.tpc p).claims)
    (hdoom : k.doomed = (s.tpc p).doomed) (hr : (s.procs p).state ≠ .running) :
    RunInv { s with
      tpc := Function.update s.tpc p (.schedRet ia k)
      cur := Function.update s.cur h none } := by
  have hinj : ∀ h', s.cur h' = some p → h' = h := fun h' hu' => hi.cur_inj hu' hu
  obtain ⟨h1, h2, h3, h4, h5, h6, h7, h8, h9, h10, hd, h11, h12⟩ := hi
  constructor <;> simp only [Function.update_apply]
  · exact h1
  · grind
  · grind
  · grind
  · exact h5
  · exact h6
  · grind
  · grind
  · grind
  · grind [Pc.Resumable]
  · grind [Pc.doomed]
  · grind [Pc.claims, ProcState.Alive]
  · grind [Pc.claims]

/-- The scheduler clears `cpu->proc`. -/
theorem clearCproc (hi : RunInv s) {i : Slot} (hu : s.cur h = none) (hpc : s.spc h = .schedBack i) :
    RunInv ((s.setCproc h none).setPc h (.schedReap i)) := by
  obtain ⟨h1, h2, h3, h4, h5, h6, h7, h8, h9, h10, hd, h11, h12⟩ := hi
  constructor <;> simp only [State.procs_setPc, State.cproc_setPc, State.cur_setPc,
    State.tpc_setPc, State.spc_setPc, State.setCproc, Function.update_apply, hu]
  · grind [Pc.Wf]
  · simpa using h2
  · grind
  · grind
  · grind
  · grind
  · simpa using h7
  · grind
  · grind
  · simpa using h10
  · simpa using hd
  · simpa using h11
  · simpa using h12

theorem setCounters (hi : RunInv s) (pid : Int) (t : Nat) :
    RunInv { s with currPid := pid, ticks := t } :=
  ⟨hi.wfS, hi.wfT, hi.cur, hi.cproc, hi.uniq, hi.running, hi.on, hi.swtch, hi.back, hi.off,
    hi.doomed, hi.claim, hi.claimUniq⟩

theorem setCpu (hi : RunInv s) (c : Spinlock.Cpu) : RunInv (s.setCpu h c) :=
  ⟨hi.wfS, hi.wfT, hi.cur, hi.cproc, hi.uniq, hi.running, hi.on, hi.swtch, hi.back, hi.off,
    hi.doomed, hi.claim, hi.claimUniq⟩

theorem setLock (hi : RunInv s) (l : Lock) (o : Option (Fin n)) : RunInv (s.setLock l o) :=
  ⟨hi.wfS, hi.wfT, hi.cur, hi.cproc, hi.uniq, hi.running, hi.on, hi.swtch, hi.back, hi.off,
    hi.doomed, hi.claim, hi.claimUniq⟩

end RunInv

/-! ## Preservation: who holds what -/

namespace LockInv

variable {s s' : State n} {h : Fin n}

/-- Neither the locks nor what the harts' points say about them changes. -/
theorem of_eq (hi : LockInv s) (hl : s'.locks = s.locks)
    (hd : ∀ h, (s'.cpus h).depth = (s.cpus h).depth)
    (hs : ∀ h, (s'.cpus h).sie = true → (s.cpus h).depth = 0)
    (hp : ∀ h, (s'.pcOf h).locks = (s.pcOf h).locks) : LockInv s' := by
  obtain ⟨h1, h2, h3⟩ := hi
  refine ⟨?_, ?_, ?_⟩
  · intro h l
    rw [hl, hp]
    exact h1 h l
  · intro h
    rw [hd, hp]
    exact h2 h
  · intro h hsie
    rw [hd]
    exact hs h hsie

/-- One hart takes or drops the lock `l`, which no other hart holds. -/
theorem setLock (hi : LockInv s) (hr : RunInv s) {l : Lock} {o : Option (Fin n)} {k : Pc}
    {c : Spinlock.Cpu} (ho : ∀ h', o = some h' → h' = h)
    (hfree : ∀ h', h' ≠ h → l ∉ (s.pcOf h').locks)
    (hk : ∀ l', l' ∈ k.locks ↔ if l' = l then o = some h else l' ∈ (s.pcOf h).locks)
    (hd : c.depth = k.locks.card) (hs : c.sie = true → c.depth = 0) :
    LockInv (((s.setLock l o).setCpu h c).setPc h k) := by
  have hne : ∀ h', h' ≠ h → (((s.setLock l o).setCpu h c).setPc h k).pcOf h' = s.pcOf h' :=
    fun h' hh => ((hr.setLock l o).setCpu c).pcOf_setPc_ne hh k
  obtain ⟨h1, h2, h3⟩ := hi
  refine ⟨?_, ?_, ?_⟩
  · intro h' l'
    have hl : (((s.setLock l o).setCpu h c).setPc h k).locks l' =
        if l' = l then o else s.locks l' := by
      simp [State.setLock, State.setCpu, Function.update_apply]
    rw [hl]
    by_cases hh : h' = h
    · subst hh
      rw [State.pcOf_setPc_self, hk, ← h1 h' l']
      split <;> rfl
    · rw [hne h' hh]
      by_cases hll : l' = l
      · subst hll
        rw [if_pos rfl]
        exact ⟨fun he => absurd (ho h' he) hh, fun hm => absurd hm (hfree h' hh)⟩
      · rw [if_neg hll]
        exact h1 h' l'
  · intro h'
    by_cases hh : h' = h
    · subst hh
      simpa [State.setCpu] using hd
    · rw [hne h' hh]
      simpa [State.setCpu, State.setLock, hh] using h2 h'
  · intro h'
    by_cases hh : h' = h
    · subst hh
      simpa [State.setCpu] using hs
    · simpa [State.setCpu, State.setLock, hh] using h3 h'

theorem acq (hi : LockInv s) (hr : RunInv s) {l : Lock} {k : Pc} (hp : s.pcOf h = .acq l k)
    (hl : s.locks l = none) :
    LockInv (((s.setLock l (some h)).setCpu h (Spinlock.pushOff (s.cpus h))).setPc h k) := by
  have hw := hr.wf h
  rw [hp] at hw
  have hmem : l ∈ k.locks := hw.2.2.1
  refine hi.setLock hr (fun h' he => (Option.some.inj he).symm) ?_ ?_ ?_ (by simp [Spinlock.pushOff])
  · intro h' _ hm
    rw [(hi.lock h' l).2 hm] at hl
    cases hl
  · intro l'
    rw [hp]
    by_cases hll : l' = l <;> simp [hll, hmem, Pc.locks]
  · have hd := hi.depth h
    have hpos := Finset.card_pos.2 ⟨l, hmem⟩
    rw [hp] at hd
    simp only [Pc.locks, Finset.card_erase_of_mem hmem] at hd
    simp only [Spinlock.pushOff, hd]
    omega

theorem rel (hi : LockInv s) (hr : RunInv s) {l : Lock} {k : Pc} {c : Spinlock.Cpu}
    (hp : s.pcOf h = .rel l k) (hl : s.locks l = some h)
    (hc : Spinlock.popOff (s.cpus h) = .ok c) :
    LockInv (((s.setLock l none).setCpu h c).setPc h k) := by
  have hw := hr.wf h
  rw [hp] at hw
  have hmem : l ∉ k.locks := hw.2.1
  have hd := hi.depth h
  rw [hp] at hd
  simp only [Pc.locks, Finset.card_insert_of_notMem hmem] at hd
  obtain ⟨c', hc', hcd, hcs⟩ := Spinlock.popOff_ok (c := s.cpus h) (by omega)
    (by by_contra hs; have := hi.sie h (by simpa using hs); omega)
  obtain rfl : c = c' := by rw [hc] at hc'; exact Except.ok.inj hc'
  refine hi.setLock hr (by simp) ?_ ?_ (by omega) ?_
  · intro h' hh hm
    rw [(hi.lock h' l).2 hm] at hl
    exact hh (Option.some.inj hl)
  · intro l'
    rw [hp]
    by_cases hll : l' = l <;> simp [hll, hmem, Pc.locks]
  · intro hs
    by_contra h0
    have := hcs (by omega)
    simp [this] at hs

theorem setPc (hi : LockInv s) (hr : RunInv s) {k : Pc} (hk : k.locks = (s.pcOf h).locks) :
    LockInv (s.setPc h k) := by
  refine hi.of_eq (by simp) (by simp) (by simpa using hi.sie) ?_
  intro h'
  by_cases hh : h' = h
  · subst hh; simpa using hk
  · rw [hr.pcOf_setPc_ne hh]

theorem setCpu (hi : LockInv s) {c : Spinlock.Cpu} (hd : c.depth = (s.cpus h).depth)
    (hs : c.sie = true → c.depth = 0) : LockInv (s.setCpu h c) := by
  refine hi.of_eq rfl ?_ ?_ (fun _ => rfl)
  · intro h'
    by_cases hh : h' = h
    · subst hh; simpa [State.setCpu] using hd
    · simp [State.setCpu, hh]
  · intro h'
    by_cases hh : h' = h
    · subst hh; simpa [State.setCpu, hd] using hs
    · simpa [State.setCpu, hh] using hi.sie h'

end LockInv

end Wl00.Sched
