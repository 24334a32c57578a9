import Wl00.Sched.Pids

/-!
# The process tree

Every parent pointer leads to a live process: the one that forked the child, or
the `init` it was handed to.  Two things can break this, and both go through
the reaper search of `kexit`, which reads `q->pid` and then `q->state` of a slot
whose lock it does not hold: the scheduler may reset the slot of an exited
`init` between the two reads, and `allocpid` may hand out pid 1 a second time
after its counter has wrapped.

* `Careful` is the condition on a step that excludes these two.
* `Tree` is the invariant under it: beside the statement itself, what a thread
  in `kexit` knows of the slots it has gone through and of its reaper.
* `no_dangling_parent` is the result, and `dangling_parent` a run of two harts
  that breaks it.
-/

namespace Wl00.Sched

variable {n : Nat}

/-- READY, RUNNING or WAITING -/
def ProcState.Live (x : ProcState) : Prop := x.Alive ∧ x ≠ .zombie

/-- Slot `r` still holds the process that forked `q`, or the `init` that `q` was
handed to. -/
def Holds (s : State n) (q r : Slot) : Prop :=
  (s.procs q).origin = .forked r (s.procs r).gen ∨
    ((s.procs q).origin = .handed r (s.procs r).gen ∧ (s.procs r).pid = 1)

/-- While `wait_lock` is free, a slot in use has no parent or one that is neither
UNUSED nor ZOMBIE and holds the process it got its child from. -/
def NoDangling (s : State n) : Prop :=
  s.locks .wait = none → ∀ q, (s.procs q).state ≠ .unused →
    (s.procs q).parent = none ∨ ∃ r, (s.procs q).parent = some r ∧
      (s.procs r).state ≠ .unused ∧ (s.procs r).state ≠ .zombie ∧ Holds s q r

/-- The slot whose `pid` the reaper search has read and whose `state` it is
about to read. -/
def Pc.scanning : Pc → Option Slot
  | .exitScanState _ _ i => some i
  | _ => none

/-- `allocpid` does not hand out pid 1, and the scheduler does not reset a slot
in the middle of a reaper search that has just read its pid. -/
def Careful (s : State n) (a : Label n) : Prop :=
  match a.event with
  | .allocpid v => v ≠ 1
  | .release q .sched _ => ∀ h, (s.pcOf h).scanning ≠ some q
  | _ => True

instance (s : State n) (a : Label n) : Decidable (Careful s a) := by
  unfold Careful
  split <;> infer_instance

/-! ## What a step does to a live process -/

section Fate

variable {s s' : State n} {h : Fin n}

/-- A live process stays live and keeps its pid until it becomes a zombie. -/
theorem live_step (hi : Inv s) (hs : Step s h s') {x : Slot} (hx : (s.procs x).state.Live) :
    ((s'.procs x).state.Live ∧ (s'.procs x).pid = (s.procs x).pid ∧
      (s'.procs x).gen = (s.procs x).gen) ∨ ∃ st, s.pcOf h = .exitZombie x st := by
  have hz := hi.frees h x
  have hc := fun b hb => (hi.claim_own (h := h) (i := x) (b := b) hb).1
  rcases hi.proc_step hs x with he | hu | ⟨-, -, he⟩
  · exact .inl (by simp [he, hx])
  · generalize s.pcOf h = pc at hu hz hc
    generalize s'.procs x = q at hu
    generalize s'.pcOf h = k at hu
    cases hu with
    | release _ r _ hl =>
        cases r with
        | fail p => exact absurd (hc false rfl) hx.1.2
        | _ => exact absurd (hz rfl) hx.2
    | claim p _ hst => exact absurd hst hx.1.1
    | setPid p _ v => exact absurd (hc false rfl) hx.1.2
    | zombie _ st => exact .inr ⟨st, rfl⟩
    | _ => simp_all [ProcState.Live, ProcState.Alive]
  · exact .inl (by simp [he, ProcState.Live, ProcState.Alive])

/-- A process keeps its slot and its pid until it is released. -/
theorem alive_step (hi : Inv s) (hs : Step s h s') {x : Slot} (hx : (s.procs x).state.Alive) :
    ((s'.procs x).state.Alive ∧ (s'.procs x).pid = (s.procs x).pid) ∨
      (∃ r, s.pcOf h = .release x r (s'.pcOf h) ∧ r.thread = s.cur h ∧ ∀ p, r ≠ .fail p) := by
  have hw := hi.wf h
  have hc := fun b hb => (hi.claim_own (h := h) (i := x) (b := b) hb).1
  rcases hi.proc_step hs x with he | hu | ⟨-, -, he⟩
  · exact .inl (by simp [he, hx])
  · generalize s.pcOf h = pc at hu hc hw
    generalize s'.procs x = q at hu
    generalize s'.pcOf h = k at hu
    cases hu with
    | release _ r _ hl =>
        refine .inr ⟨r, rfl, hw.1, ?_⟩
        rintro p rfl
        exact hx.2 (hc false rfl)
    | claim p _ hst => exact absurd hst hx.1
    | setPid p _ v => exact absurd (hc false rfl) hx.2
    | _ => simp_all [ProcState.Alive]
  · exact .inl (by simp [he, ProcState.Alive])

end Fate

/-! ## What a thread in `kexit` knows -/

/-- The reaper that `kexit` of `p` has chosen is a live `init`. -/
def Reaper (s : State n) (p : Slot) (r : Option Slot) : Prop :=
  ∀ x, r = some x → x ≠ p ∧ (s.procs x).state.Live ∧ (s.procs x).pid = 1

/-- `kexit` has seen pid 1 in the slot it looks at, has left no child behind
among the slots it has gone through, and has a live reaper or none. -/
@[simp] def Kin (s : State n) : Pc → Prop
  | .acq l k | .rel l k => l ≠ .wait → Kin s k ∧ k.scanning = none
  | .wakeup _ _ k | .wakeCheck _ _ k | .release _ _ k => Kin s k ∧ k.scanning = none
  | .exitScanState p _ i => i ≠ p ∧ (s.procs i).pid = 1 ∧ (s.procs i).state.Alive
  | .exitChildren p _ r i _ =>
      (∀ q : Slot, q.val < i → (s.procs q).parent ≠ some p) ∧ Reaper s p r
  | .exitHand p _ r i _ => (∀ q, q < i → (s.procs q).parent ≠ some p) ∧ Reaper s p r
  | .exitParent p _ | .exitParentArg p _ | .exitZombie p _ => ∀ q, (s.procs q).parent ≠ some p
  | _ => True

/-- What holds of the process tree in every run of careful steps. -/
structure Tree (s : State n) : Prop where
  pid : ∀ q, ¬(s.procs q).state.Alive → (s.procs q).pid ≠ 1
  newPid : NewPids (· ≠ 1) s
  live : ∀ q r, (s.procs q).parent = some r → (s.procs r).state.Live ∧ Holds s q r
  kin : ∀ h, Kin s (s.pcOf h)

theorem Pc.scanning_eq_none {k : Pc} (hl : .wait ∉ k.locks) : k.scanning = none := by
  unfold scanning
  split
  · simp at hl
  · rfl

theorem kin_of_not_wait {s : State n} {t : Option Slot} {k : Pc} (hw : k.Wf t)
    (hl : .wait ∉ k.locks) : Kin s k := by
  have hframe : ∀ {k'}, k'.Wf t → .wait ∉ k'.locks → (k'.Wf t → .wait ∉ k'.locks → Kin s k') →
      Kin s k' ∧ k'.scanning = none := fun hw hl ih => ⟨ih hw hl, Pc.scanning_eq_none hl⟩
  induction k with
  | acq l k ih => exact fun hne => hframe hw.1 (fun hm => hl (by simp [hm, Ne.symm hne])) ih
  | rel l k ih => exact fun _ => hframe hw.1 (fun hm => hl (by simp [hm])) ih
  | wakeup c i k ih | wakeCheck c i k ih => exact hframe hw.1 (fun hm => hl (by simp [hm])) ih
  | release q r k ih => exact hframe (hw.1 ▸ hw.2.spec.1) hl ih
  | exitScanState | exitChildren | exitHand | exitParent | exitParentArg | exitZombie =>
      simp at hl
  | _ => trivial

/-- What a hart knows is kept by whatever leaves the parents alone, lets the live
live and does not reset the slot it looks at. -/
theorem Kin.mono {s s' : State n} {k : Pc} (hk : Kin s k)
    (hp : ∀ q, (s'.procs q).parent = (s.procs q).parent)
    (hl : ∀ x, (s.procs x).state.Live →
      (s'.procs x).state.Live ∧ (s'.procs x).pid = (s.procs x).pid)
    (ha : ∀ x, k.scanning = some x → (s.procs x).state.Alive →
      (s'.procs x).state.Alive ∧ (s'.procs x).pid = (s.procs x).pid) : Kin s' k := by
  have hr : ∀ p r, Reaper s p r → Reaper s' p r := by
    intro p r hr x hx
    obtain ⟨hne, hlive, hpid⟩ := hr x hx
    obtain ⟨hlive', hpid'⟩ := hl x hlive
    exact ⟨hne, hlive', by rw [hpid', hpid]⟩
  induction k with
  | acq l k ih | rel l k ih =>
      intro hne
      obtain ⟨hk, hs⟩ := hk hne
      exact ⟨ih hk (by simp [hs]), hs⟩
  | wakeup c i k ih | wakeCheck c i k ih | release q r k ih =>
      exact ⟨ih hk.1 (by simp [hk.2]), hk.2⟩
  | exitScanState p st i =>
      obtain ⟨hne, hpid, hal⟩ := hk
      obtain ⟨hal', hpid'⟩ := ha i rfl hal
      exact ⟨hne, by rw [hpid', hpid], hal'⟩
  | exitChildren p st r i g | exitHand p st r i g =>
      exact ⟨fun q hq => by rw [hp]; exact hk.1 q hq, hr p r hk.2⟩
  | exitParent p st | exitParentArg p st | exitZombie p st =>
      exact fun q => by rw [hp]; exact hk q
  | _ => trivial

section Step

variable {s s' : State n} {h : Fin n}

theorem Kin.congr {k : Pc} (hk : Kin s k) (hp : s'.procs = s.procs) : Kin s' k := by
  refine hk.mono ?_ ?_ ?_ <;> simp [hp]

theorem Silent.kin {pc k : Pc} {t : Option Slot} (hk : Silent s h pc k) (hw : pc.Wf t)
    (hpid : ∀ q, ¬(s.procs q).state.Alive → (s.procs q).pid ≠ 1) (ha : Kin s pc) : Kin s k := by
  cases hk
  case timerUser | timerKernel =>
    unfold clockintr
    split <;> simp [Pc.scanning]
  case mm | sret => exact kin_of_not_wait hw.1 (by simp [hw.2.2])
  case trapYieldNo => exact kin_of_not_wait hw.1 (by simp [hw.2.2.1])
  case schedRet =>
    obtain ⟨p, -, hl⟩ := hw.2.2.2.2
    exact kin_of_not_wait hw.1 (by simp [hl])
  case clockTick k =>
    have hl : .wait ∉ k.locks := by simp [hw.2.2]
    exact ⟨fun _ => ⟨kin_of_not_wait hw.1 hl, Pc.scanning_eq_none hl⟩, rfl⟩
  case wakeupNext | wakeCheckNo => exact fun _ => ⟨ha, rfl⟩
  case wakeupEnd => exact ha.1
  case releaseMem => exact fun _ => ⟨fun _ => ⟨ha, rfl⟩, rfl⟩
  case exitScanFound p st i hi h1 hne => exact ⟨hne, h1, by_contra fun hn => hpid _ hn h1⟩
  case exitScanTake p st i hz =>
    refine ⟨by simp, ?_⟩
    rintro x ⟨⟩
    exact ⟨ha.1, ⟨ha.2.2, hz⟩, ha.2.1⟩
  case exitScanEnd => exact ⟨by simp, by rintro x ⟨⟩⟩
  case exitChild => exact fun _ => ⟨ha, rfl⟩
  case exitChildNo p st r i hi g hne =>
    refine ⟨fun q hq => ?_, ha.2⟩
    rcases Nat.lt_succ_iff_lt_or_eq.1 hq with hq | hq
    · exact ha.1 q hq
    · obtain rfl : q = ⟨i, hi⟩ := Fin.ext hq
      exact hne
  case exitChildEndWake p st r i hi => exact ⟨fun q => ha.1 q (q.isLt.trans_le hi), rfl⟩
  case exitChildEnd p st r i hi => exact fun q => ha.1 q (q.isLt.trans_le hi)
  case exitParentNone => exact fun _ => ⟨ha, rfl⟩
  case exitParent => exact ha
  case exitParentArg => exact ⟨fun _ => ⟨ha, rfl⟩, rfl⟩
  all_goals simp [failFork, reap, Pc.scanning]

theorem Update.kin {pc k : Pc} {i : Slot} {q : Proc} {t : Option Slot}
    (hu : Update s h pc i q k) (hw : pc.Wf t) (ha : Kin s pc)
    (hp : s'.procs = Function.update s.procs i q) : Kin s' k := by
  -- the loop over the children has one more slot behind it
  have hhand : ∀ p r, (∀ q, q < i → (s.procs q).parent ≠ some p) ∧ Reaper s p r →
      q.parent = r → q.state = (s.procs i).state → q.pid = (s.procs i).pid →
      (∀ q : Slot, q.val < i.val + 1 → (s'.procs q).parent ≠ some p) ∧ Reaper s' p r := by
    rintro p r ⟨hkids, hr⟩ hpar hst hpid
    rw [hp]
    refine ⟨fun j hj => ?_, fun x hx => ?_⟩
    · rcases Nat.lt_succ_iff_lt_or_eq.1 hj with hj | hj
      · rw [Function.update_of_ne (Fin.ne_of_lt hj)]
        exact hkids j hj
      · obtain rfl := Fin.ext hj
        rw [Function.update_self, hpar]
        exact fun he => (hr p he).1 rfl
    · obtain ⟨hne, hlive, h1⟩ := hr x hx
      rw [hp]
      by_cases hxi : x = i
      · subst hxi
        rw [Function.update_self, hst, hpid]
        exact ⟨hne, hlive, h1⟩
      · rw [Function.update_of_ne hxi]
        exact ⟨hne, hlive, h1⟩
  cases hu with
  | wake c _ k hch hst =>
      refine fun _ => ⟨⟨ha.1.mono ?_ ?_ (by simp [ha.2]), ha.2⟩, rfl⟩
      · intro x
        rw [hp]
        by_cases hxi : x = i
        · subst hxi; simp
        · simp [hxi]
      · intro x hx
        rw [hp]
        by_cases hxi : x = i
        · subst hxi; simp [ProcState.Live, ProcState.Alive]
        · simpa [hxi] using hx
  | release _ r k hl =>
      cases r with
      | wait p => obtain ⟨v, rfl⟩ := hw.2; simp [Pc.scanning]
      | kexit p =>
          obtain ⟨st, g, rfl⟩ := hw.2
          obtain ⟨hkids, hr⟩ := (ha.1 (by simp)).1
          refine fun _ => ⟨⟨fun j hj => ?_, by rintro x ⟨⟩⟩, rfl⟩
          rw [hp]
          by_cases hji : j = i
          · subst hji; simp [releaseproc]
          · rw [Function.update_of_ne hji]
            exact hkids j hj
      | sched => obtain rfl := hw.2; simp [Pc.scanning]
      | fail p => obtain rfl := hw.2; simp [Pc.scanning]
  | handNone p st g hz => exact fun _ => ⟨hhand p none ha rfl rfl rfl, rfl⟩
  | handRelease p st g hz => exact ⟨fun _ => ⟨hhand p none ha rfl rfl rfl, rfl⟩, rfl⟩
  | hand p st r g hz => exact fun _ => ⟨hhand p _ ha rfl rfl rfl, rfl⟩
  | handZombie p st r g hz => exact fun _ => ⟨hhand p _ ha rfl rfl rfl, rfl⟩
  | awake p lk k =>
      obtain ⟨-, c, hs⟩ := hw
      obtain ⟨-, rfl, a, rfl⟩ | ⟨-, rfl, m, st, rfl⟩ := hs <;> simp [Pc.scanning]
  | _ => simp [Pc.scanning]

theorem kin_own (hi : Inv s) (hs : Step s h s') (ht : Tree s) : Kin s' (s'.pcOf h) := by
  have hw := hi.wf h
  have ha := ht.kin h
  obtain ⟨pc, procs, k, hpc, hprocs, hk, hm⟩ := hi.move hs
  rw [hk]
  rw [hpc] at hw ha
  cases hm with
  | silent hsil => exact (hsil.kin hw ht.pid ha).congr hprocs
  | update hu => exact hu.kin hw ha hprocs
  | acq l k _ =>
      by_cases hl : l = .wait
      · obtain ⟨_, _, rfl⟩ | ⟨_, _, rfl⟩ | ⟨_, _, _, rfl⟩ := hw.2.2.2.2.1 hl <;> simp [Pc.scanning]
      · exact (ha hl).1.congr hprocs
  | rel l k =>
      by_cases hl : l = .wait
      · subst hl
        exact kin_of_not_wait hw.1 hw.2.1
      · exact (ha hl).1.congr hprocs
  | enter i hwf hres => exact kin_of_not_wait hwf (by simp [hres.locks hwf])
  | alloc | dispatch | leave | back => trivial

theorem kin_step (hi : Inv s) (hf : Family s) (ht : Tree s) (hs : Step s h s')
    (hrel : ∀ q, s.pcOf h = .release q .sched (s'.pcOf h) → ∀ h', (s.pcOf h').scanning ≠ some q)
    (h' : Fin n) : Kin s' (s'.pcOf h') := by
  by_cases hh : h' = h
  · subst hh
    exact kin_own hi hs ht
  · rw [hi.pcOf_step hs hh]
    by_cases hl : .wait ∈ (s.pcOf h').locks
    · -- this step is made without `wait_lock`
      have hl' : .wait ∉ (s.pcOf h).locks := fun hl' => hh (hi.lock_inj hl hl')
      refine (ht.kin h').mono (hf.parent_step hi hs hl') (fun x hx => ?_) (fun x hx hal => ?_)
      · rcases live_step hi hs hx with ⟨h1, h2, -⟩ | ⟨st, he⟩
        · exact ⟨h1, h2⟩
        · simp [he] at hl'
      · rcases alive_step hi hs hal with hal | ⟨r, he, -, hr⟩
        · exact hal
        · have hw := hi.wf h
          rw [he] at hw hl'
          cases r with
          | wait p => obtain ⟨v, hk⟩ := hw.2; simp [hk] at hl'
          | kexit p => obtain ⟨st, g, hk⟩ := hw.2; simp [hk] at hl'
          | sched => exact absurd hx (hrel x he h')
          | fail p => exact absurd rfl (hr p)
    · exact kin_of_not_wait (hi.wf h') hl

/-- Parents stay live, and children keep where they came from. -/
theorem parent_live_step (hi : Inv s) (ht : Tree s) (hs : Step s h s') (q r : Slot)
    (hp : (s'.procs q).parent = some r) : (s'.procs r).state.Live ∧ Holds s' q r := by
  -- the parent lives on, since no child is left when a process becomes a zombie
  have hkeep : (s'.procs q).parent = (s.procs q).parent → (s'.procs q).origin = (s.procs q).origin →
      (s'.procs r).state.Live ∧ Holds s' q r := by
    intro hpar hor
    rw [hpar] at hp
    obtain ⟨hlive, hold⟩ := ht.live q r hp
    rcases live_step hi hs hlive with ⟨hlive', hpid, hgen⟩ | ⟨st, he⟩
    · exact ⟨hlive', by rwa [Holds, hor, hgen, hpid]⟩
    · have hk := ht.kin h
      rw [he] at hk
      exact absurd hp (hk q)
  have hw := hi.wf h
  have hk := ht.kin h
  rcases hi.proc_step hs q with he | hu | ⟨-, -, he⟩
  · exact hkeep (by rw [he]) (by rw [he])
  · generalize hq : s'.procs q = x at hu hp hkeep
    generalize s'.pcOf h = k at hu
    generalize hpc : s.pcOf h = pc at hu hw hk
    cases hu with
    | publish p _ v =>
        obtain rfl : p = r := Option.some.inj hp
        have hu : s.cur h = some p := hw
        have hst : (s.procs p).state = .running := by
          rw [s.pcOf_some hu] at hpc
          exact (hi.on h p hu).1.1 (by rw [hpc]; rfl)
        rcases live_step hi hs (x := p) (by simp [hst, ProcState.Live, ProcState.Alive]) with
          ⟨hlive, -, hgen⟩ | ⟨st, he⟩
        · exact ⟨hlive, .inl (by rw [hq, hgen])⟩
        · rw [hpc] at he
          cases he
    | hand p st r' _ g | handZombie p st r' _ g =>
        obtain rfl : r' = r := Option.some.inj hp
        obtain ⟨-, hlive, h1⟩ := hk.2 r' rfl
        rcases live_step hi hs hlive with ⟨hlive', hpid, hgen⟩ | ⟨st, he⟩
        · exact ⟨hlive', .inr ⟨by rw [hq, hgen], by rw [hpid, h1]⟩⟩
        · rw [hpc] at he
          cases he
    | handNone | handRelease | release => cases hp
    | _ => exact hkeep rfl rfl
  · exact hkeep (by rw [he]) (by rw [he])

theorem pid_step (hi : Inv s) (ht : Tree s) (hs : Step s h s') (q : Slot)
    (ha : ¬(s'.procs q).state.Alive) : (s'.procs q).pid ≠ 1 := by
  have hold := ht.pid q
  have hw := hi.wf h
  rcases hi.proc_step hs q with he | hu | ⟨-, -, he⟩
  · rw [he] at ha ⊢
    exact hold ha
  · generalize s'.procs q = x at hu ha
    generalize s'.pcOf h = k at hu
    generalize hpc : s.pcOf h = pc at hu hw
    cases hu with
    | release => simp [releaseproc]
    | claim p _ hst => exact hold (by simp [hst, ProcState.Alive])
    | setPid p _ v =>
        have hu : s.cur h = some p := hw
        rw [s.pcOf_some hu] at hpc
        exact ht.newPid p v (by rw [hpc]; rfl)
    | awake | handNone | handRelease | hand | handZombie => exact hold ha
    | _ => simp [ProcState.Alive] at ha
  · simp [he, ProcState.Alive] at ha

end Step

theorem tree_step {s s' : State n} {a : Label n} (hi : Inv s) (hf : Family s) (ht : Tree s)
    (hs : (system n).step s a s') (hc : Careful s a) : Tree s' := by
  obtain ⟨hn, he⟩ := hs
  have hstep := next_step hn
  refine ⟨pid_step hi ht hstep, ht.newPid.step hi hstep ?_, parent_live_step hi ht hstep,
    kin_step hi hf ht hstep ?_⟩
  · rintro p i hp h1
    have hne := hi.choice_ne_timer (l := .pid) hn (by simp [hp])
    simp [Careful, he, emit, hne, hp, h1] at hc
  · intro q hp
    have hw := hi.wf a.hart
    rw [hp] at hw
    have hne := hi.choice_ne_timer (l := .proc q) hn (by rw [hp]; exact hw.2.spec.2.2.1)
    by_cases hm : a.choice = .mem
    · -- then the slot has not been reset yet
      simp only [next, hm, go, hp] at hn
      have hpc := congrArg (State.pcOf · a.hart) (Option.some.inj hn)
      rw [show s'.pcOf a.hart = _ from hw.2] at hpc
      simp at hpc
    · simpa [Careful, he, emit, hne, hp, hm] using hc

theorem tree_boot : Tree (boot n) := by
  refine ⟨fun q => ?_, ?_, ?_, ?_⟩
  · intro hq
    simp only [boot] at hq ⊢
    split <;> simp_all [ProcState.Alive]
  · simp [boot, NewPids]
  · simp [boot]
  · simp [boot, State.pcOf]

theorem tree_reachable {s : State n} (hr : ((system n).restrict Careful).Reachable s) : Tree s := by
  refine hr.invariant ?_ ?_
  · rintro _ rfl
    exact tree_boot
  · rintro s a s' hr ht ⟨hc, hs⟩
    exact tree_step (inv_reachable hr.of_restrict) (family_reachable hr.of_restrict) ht hs hc

/-- **The process tree has no dangling parent**, in every run in which `allocpid`
does not hand out pid 1 again and the scheduler resets no slot whose pid a reaper
search has just read. -/
theorem no_dangling_parent (s : State n) (hr : ((system n).restrict Careful).Reachable s) :
    NoDangling s := by
  intro _ q _
  cases hp : (s.procs q).parent with
  | none => exact .inl rfl
  | some r =>
      obtain ⟨⟨⟨hu, -⟩, hz⟩, hold⟩ := (tree_reachable hr).live q r hp
      exact .inr ⟨r, rfl, hu, hz, hold⟩

/-- `init` forks: the child's parent is `init`. -/
theorem no_dangling_parent_forked : ∃ s : State 1, ((system 1).restrict Careful).Reachable s ∧
    s.locks .wait = none ∧ (s.procs 1).parent = some 0 ∧ (s.procs 0).state ≠ .zombie := by
  have hrun : (runWhile Careful (boot 1)
      (goes 0 9 ++ [(0, .fork)] ++ goes 0 24)).map (fun s =>
        (s.locks .wait, (s.procs 1).state, (s.procs 1).parent)) = some (none, .ready, some 0) := by
    decide +kernel
  obtain ⟨s, hs, he⟩ := Option.map_eq_some_iff.1 hrun
  simp only [Prod.mk.injEq] at he
  obtain ⟨hl, hst, hp⟩ := he
  have hr := reachable_runWhile (.start rfl) hs
  rcases no_dangling_parent s hr hl 1 (by simp [hst]) with hn | ⟨r, hr', -, hz, -⟩
  · rw [hp] at hn
    cases hn
  · obtain rfl : 0 = r := Option.some.inj (hp.symm.trans hr')
    exact ⟨s, hr, hl, hp, hz⟩

/-- **A dangling parent.**  `init` and its child exit on two harts.  The child's
`kexit` reads pid 1 in `init`'s slot; the scheduler of the other hart, which
holds only that slot's lock, resets it; `kexit` then reads UNUSED, which is not
ZOMBIE, and hands its own child to the empty slot. -/
theorem dangling_parent : ∃ s : State 2, (system 2).Reachable s ∧ ¬NoDangling s := by
  have hrun : (run (boot 2)
      (goes 0 9 ++ [(0, .fork)] ++ goes 0 24 ++
        goes 1 13 ++ [(1, .fork)] ++ goes 1 28 ++
        [(0, .exit 0)] ++ goes 0 78 ++
        [(1, .exit 0)] ++ goes 1 3 ++ [(0, .go)] ++
        goes 1 41)).map (fun s =>
          (s.locks .wait, (s.procs 2).state, (s.procs 2).parent, (s.procs 0).state)) =
      some (none, .ready, some 0, .unused) := by
    decide +kernel
  obtain ⟨s, hs, he⟩ := Option.map_eq_some_iff.1 hrun
  simp only [Prod.mk.injEq] at he
  obtain ⟨hl, hst, hp, hu⟩ := he
  have hr := reachable_run (.start rfl) hs
  refine ⟨s, hr, fun hd => ?_⟩
  rcases hd hl 2 (by simp [hst]) with hn | ⟨r, hr', hne, -⟩
  · rw [hp] at hn
    cases hn
  · obtain rfl : 0 = r := Option.some.inj (hp.symm.trans hr')
    exact hne hu

end Wl00.Sched
