import Wl00.Sched.Pids
import Wl00.Sched.Trace

/-!
# Who releases a zombie

A zombie without a parent is never left alone: from the moment it has none until
its slot is reset, some hart holds its lock and is on the way to release it.
And a `kexit` that releases a zombie itself has found no reaper.

* `attended` — the first; its consequence is that a zombie whose lock is free has
  a parent.
* `Barren` — the second.
-/

namespace Wl00.Sched

variable {n : Nat}

/-- The hart at this point holds the lock of the zombie `q` and will release it if
it has no parent. -/
def Pc.Attends (q : Slot) (pc : Pc) : Prop :=
  pc.orphan = some q ∨ pc = .rel .wait (.exitSched q) ∨ pc = .exitSched q ∨
    pc = .schedBack q ∨ pc = .schedReap q

theorem Pc.Attends.mem_locks {t : Option Slot} {pc : Pc} {q : Slot} (ha : pc.Attends q)
    (hw : pc.Wf t) : .proc q ∈ pc.locks := by
  rcases ha with ha | rfl | rfl | rfl | rfl
  · exact Pc.mem_locks_of_frees hw (Pc.frees_of_orphan ha)
  all_goals simp

/-- A zombie without a parent is attended to. -/
def Attended (s : State n) : Prop :=
  ∀ q, (s.procs q).state = .zombie → (s.procs q).parent = none → ∃ h, (s.pcOf h).Attends q

section Step

variable {s s' : State n} {h : Fin n}

theorem Silent.orphan_kept {pc k : Pc} {q : Slot} (hk : Silent s h pc k)
    (hq : pc.orphan = some q) : k.orphan = some q := by
  cases hk
  case timerUser | timerKernel =>
    unfold clockintr
    split <;> simp_all
  all_goals simp_all

/-- A thread about to release an orphan changes no other slot before. -/
theorem Update.eq_of_orphan {pc k : Pc} {i j : Slot} {x : Proc} {t : Option Slot}
    (hu : Update s h pc i x k) (hw : pc.Wf t) (hq : pc.orphan = some j) :
    i = j ∧ x = releaseproc (s.procs j) := by
  have hf := Pc.frees_of_orphan hq
  cases hu with
  | wake c _ k =>
      rw [Pc.frees, Pc.frees_eq_none hw.1 hw.2.2.1] at hf
      cases hf
  | yield _ k =>
      rw [Pc.frees, Pc.frees_eq_none hw.1 (by simp [hw.2.2.2])] at hf
      cases hf
  | release _ r k hl => cases r <;> simp_all
  | _ => simp_all

/-- The hart that attends to a zombie goes on doing so until the slot changes. -/
theorem attends_own (hi : Inv s) (hs : Step s h s') {q : Slot} (hz : (s.procs q).state = .zombie)
    (hp : (s.procs q).parent = none) (he : s'.procs q = s.procs q) (ha : (s.pcOf h).Attends q) :
    (s'.pcOf h).Attends q := by
  have hw := hi.wf h
  have hl := ha.mem_locks hw
  have hsie : (s.cpus h).sie = true → False := by
    intro hs
    rw [hi.locks_eq_empty hs] at hl
    simp at hl
  obtain ⟨pc, procs, k, hpc, hprocs, hk, hm⟩ := hi.move hs
  rw [hprocs] at he
  rw [hpc] at ha hw
  rw [hk]
  rcases ha with ha | rfl | rfl | rfl | rfl
  · left
    cases hm with
    | silent hsil => exact hsil.orphan_kept ha
    | update hu =>
        obtain ⟨rfl, rfl⟩ := hu.eq_of_orphan hw ha
        rw [Function.update_self] at he
        have := congrArg Proc.gen he
        simp [releaseproc] at this
    | acq l k _ | rel l k => exact ha
    | leave p hl hwp =>
        rcases hl with rfl | ⟨p', rfl, -⟩
        · have hf := Pc.frees_of_orphan ha
          rw [Pc.frees, hwp.2.2.2.1] at hf
          cases hf
        · cases ha
    | enter | alloc | dispatch | back => cases ha
  · cases hm with
    | rel => exact .inr (.inr (.inl rfl))
    | silent hsil => cases hsil with | timerKernel _ hc _ => exact (hsie hc).elim
    | update hu => cases hu
    | leave p hl _ => rcases hl with hl | ⟨p', hl, -⟩ <;> cases hl
  · cases hm with
    | silent hsil => cases hsil with | timerKernel _ hc _ => exact (hsie hc).elim
    | update hu => cases hu
    | leave p hl hwp =>
        obtain rfl : p = q := Option.some.inj hwp
        exact .inr (.inr (.inr (.inl rfl)))
  · cases hm with
    | silent hsil => cases hsil with | timerKernel _ hc _ => exact (hsie hc).elim
    | update hu => cases hu
    | leave p hl _ => rcases hl with hl | ⟨p', hl, -⟩ <;> cases hl
    | back => exact .inr (.inr (.inr (.inr rfl)))
  · cases hm with
    | silent hsil =>
        cases hsil with
        | timerKernel _ hc _ => exact (hsie hc).elim
        | schedReap => exact .inl rfl
        | schedReapNo _ hno => exact absurd ⟨hz, hp⟩ hno
    | update hu => cases hu
    | leave p hl _ => rcases hl with hl | ⟨p', hl, -⟩ <;> cases hl

theorem Attended.step (hat : Attended s) (hi : Inv s) (hs : Step s h s') : Attended s' := by
  intro q hz hp
  rcases hi.proc_step hs q with he | hu | ⟨-, -, he⟩
  · rw [he] at hz hp
    obtain ⟨h', ha⟩ := hat q hz hp
    by_cases hh : h' = h
    · subst hh
      exact ⟨h', attends_own hi hs hz hp he ha⟩
    · exact ⟨h', by rwa [hi.pcOf_step hs hh]⟩
  · refine ⟨h, ?_⟩
    have hw := hi.wf h
    have hc := fun b hb => (hi.claim_own (h := h) (i := q) (b := b) hb).1
    have hrun : ∀ p, s.cur h = some p → (s.pcOf h).plain → (s.procs p).state = .running := by
      intro p hu hpl
      rw [s.pcOf_some hu] at hpl
      exact (hi.on h p hu).1.1 hpl
    generalize s.pcOf h = pc at hu hw hc hrun
    generalize s'.procs q = x at hu hz hp
    generalize s'.pcOf h = k at hu
    cases hu with
    | zombie _ st => exact .inr (.inl rfl)
    | handRelease => exact .inl rfl
    | awake _ lk k => simp [hrun q hw.1 rfl] at hz
    | setPid p _ v => simp [hc false rfl] at hz
    | handNone _ _ _ _ hne => exact absurd hz hne
    | hand | handZombie => cases hp
    | _ => simp [releaseproc] at hz
  · simp [he] at hz

end Step

theorem attended_reachable {s : State n} (hr : (system n).Reachable s) : Attended s := by
  refine hr.invariant ?_ ?_
  · rintro _ rfl q hz
    simp only [boot] at hz
    split at hz <;> cases hz
  · rintro s a s' hr hat ⟨hn, -⟩
    exact hat.step (inv_reachable hr) (next_step hn)

/-! ## A `kexit` without a reaper -/

/-- Slot `x` does not hold a live `init` other than `p`. -/
def NoInit (s : State n) (p x : Slot) : Prop :=
  x ≠ p → (s.procs x).pid = 1 → (s.procs x).state = .zombie

/-- The reaper search has passed by no live `init`, and where it has found no
reaper there is none. -/
@[simp] def Barren (s : State n) : Pc → Prop
  | .acq l k | .rel l k => l ≠ .wait → Barren s k
  | .release _ _ k => Barren s k
  | .exitScan p _ i => ∀ x : Slot, x.val < i → NoInit s p x
  | .exitScanState p _ i => ∀ x, x < i → NoInit s p x
  | .exitChildren p _ r _ _ | .exitHand p _ r _ _ => r = none → ∀ x, NoInit s p x
  | _ => True

section Step

variable {s s' : State n} {h : Fin n}

theorem noInit_step (hi : Inv s) (hs : Step s h s') (hv : NewPids (· ≠ 1) s) {p x : Slot}
    (hx : NoInit s p x) : NoInit s' p x := by
  intro hne h1
  rcases hi.proc_step hs x with he | hu | ⟨-, hst, he⟩
  · rw [he] at h1 ⊢
    exact hx hne h1
  · have hw := hi.wf h
    have hc := fun b hb => (hi.claim_own (h := h) (i := x) (b := b) hb).1
    have hrun : ∀ p, s.cur h = some p → (s.pcOf h).plain → (s.procs p).state = .running := by
      intro p hu hpl
      rw [s.pcOf_some hu] at hpl
      exact (hi.on h p hu).1.1 hpl
    generalize hpc : s.pcOf h = pc at hu hw hrun hc
    generalize s'.procs x = q at hu h1 ⊢
    generalize s'.pcOf h = k at hu
    cases hu with
    | setPid p' _ v =>
        have hu : s.cur h = some p' := hw
        rw [s.pcOf_some hu] at hpc
        exact absurd h1 (hv p' v (by rw [hpc]; rfl))
    | release => simp [releaseproc] at h1
    | zombie => rfl
    | awake | handNone | handRelease | hand | handZombie => exact hx hne h1
    | wake _ _ _ _ hst | claim _ _ hst => simp [hx hne h1] at hst
    | yield _ k =>
        have := hrun x hw.2.2.1 rfl
        simp [hx hne h1] at this
    | sleep _ c lk k =>
        have := hrun x hw.1 rfl
        simp [hx hne h1] at this
    | publish p' _ v =>
        have := hc true rfl
        simp [hx hne h1] at this
  · have := hx hne (by rw [he] at h1; exact h1)
    simp [hst] at this

theorem barren_of_not_wait {t : Option Slot} {k : Pc} (hw : k.Wf t) (hl : .wait ∉ k.locks) :
    Barren s k := by
  induction k with
  | acq l k ih => exact fun hne => ih hw.1 fun hm => hl (by simp [hm, Ne.symm hne])
  | rel l k ih => exact fun _ => ih hw.1 fun hm => hl (by simp [hm])
  | release q r k ih => exact ih (hw.1 ▸ hw.2.spec.1) hl
  | exitScan | exitScanState | exitChildren | exitHand => simp at hl
  | _ => trivial

theorem Barren.mono {k : Pc} (hb : Barren s k) (hx : ∀ p x, NoInit s p x → NoInit s' p x) :
    Barren s' k := by
  induction k with
  | acq l k ih | rel l k ih => exact fun hne => ih (hb hne)
  | release q r k ih => exact ih hb
  | exitScan p st i | exitScanState p st i => exact fun x hlt => hx p x (hb x hlt)
  | exitChildren p st r i g | exitHand p st r i g => exact fun hr x => hx p x (hb hr x)
  | _ => trivial

theorem Silent.barren {pc k : Pc} {t : Option Slot} (hk : Silent s h pc k) (hw : pc.Wf t)
    (hb : Barren s pc) : Barren s k := by
  cases hk
  case timerUser | timerKernel =>
    unfold clockintr
    split <;> simp
  case mm | sret => exact barren_of_not_wait hw.1 (by simp [hw.2.2])
  case trapYieldNo => exact barren_of_not_wait hw.1 (by simp [hw.2.2.1])
  case schedRet =>
    obtain ⟨p, -, hl⟩ := hw.2.2.2.2
    exact barren_of_not_wait hw.1 (by simp [hl])
  case wakeupEnd =>
    by_cases hwait : .wait ∈ k.locks
    · obtain ⟨p, st, rfl | rfl⟩ := hw.2.2.2 hwait <;> simp
    · exact barren_of_not_wait hw.1 hwait
  case releaseMem => exact fun _ _ => hb
  case exitScanNo p st i hi hno =>
    intro x hlt hne h1
    rcases Nat.lt_succ_iff_lt_or_eq.1 hlt with hlt | heq
    · exact hb x hlt hne h1
    · obtain rfl : x = ⟨i, hi⟩ := Fin.ext heq
      exact absurd ⟨h1, hne⟩ hno
  case exitScanFound => exact hb
  case exitScanZombie p st i hz =>
    intro x hlt hne h1
    rcases Nat.lt_succ_iff_lt_or_eq.1 hlt with hlt | heq
    · exact hb x hlt hne h1
    · obtain rfl := Fin.ext heq
      exact hz
  case exitScanEnd p st i hi => exact fun _ x => hb x (x.isLt.trans_le hi)
  case exitChild => exact fun _ => hb
  case exitChildNo => exact hb
  all_goals simp [failFork, reap]

theorem Update.barren {pc k : Pc} {i : Slot} {q : Proc} {t : Option Slot}
    (hu : Update s h pc i q k) (hw : pc.Wf t) (hb : Barren s pc) : Barren s k := by
  cases hu with
  | release _ r k hl => exact hb
  | handNone | hand | handZombie => exact fun _ => hb
  | handRelease => exact fun _ => hb
  | awake p lk k =>
      obtain ⟨-, c, hs⟩ := hw
      obtain ⟨-, rfl, a, rfl⟩ | ⟨-, rfl, m, st, rfl⟩ := hs <;> simp
  | _ => simp

/-- `allocpid` does not hand out -1. -/
def NoWrap (_ : State n) (a : Label n) : Prop := a.event ≠ .allocpid (-1)

instance (s : State n) (a : Label n) : Decidable (NoWrap s a) := by
  unfold NoWrap
  infer_instance

/-- What holds while the pids have not wrapped. -/
structure Fresh (s : State n) : Prop where
  range : Unwrapped s.currPid
  new : NewPids (fun v => v ≠ -1 ∧ v ≠ 1) s
  pid : ∀ q, (s.procs q).pid ≠ -1
  barren : ∀ h, Barren s (s.pcOf h)

theorem pid_ne_step (hi : Inv s) (hf : Fresh s) (hs : Step s h s') (q : Slot) :
    (s'.procs q).pid ≠ -1 := by
  have hold := hf.pid q
  rcases hi.proc_step hs q with he | hu | ⟨-, -, he⟩
  · rwa [he]
  · have hw := hi.wf h
    generalize hpc : s.pcOf h = pc at hu hw
    generalize s'.procs q = x at hu
    generalize s'.pcOf h = k at hu
    cases hu with
    | setPid p _ v =>
        have hu : s.cur h = some p := hw
        rw [s.pcOf_some hu] at hpc
        exact (hf.new p v (by rw [hpc]; rfl)).1
    | release => simp [releaseproc]
    | _ => exact hold
  · rwa [he]

theorem barren_step (hi : Inv s) (hf : Fresh s) (hs : Step s h s') (h' : Fin n) :
    Barren s' (s'.pcOf h') := by
  have hx := fun p x => noInit_step hi hs (fun p v hv => (hf.new p v hv).2) (p := p) (x := x)
  by_cases hh : h' = h
  · subst hh
    have hw := hi.wf h'
    have hb := hf.barren h'
    obtain ⟨pc, procs, k, hpc, hprocs, hk, hm⟩ := hi.move hs
    rw [hk]
    rw [hpc] at hw hb
    refine Barren.mono ?_ hx
    cases hm with
    | silent hsil => exact hsil.barren hw hb
    | update hu => exact hu.barren hw hb
    | acq l k _ =>
        by_cases hl : l = .wait
        · obtain ⟨_, _, rfl⟩ | ⟨_, _, rfl⟩ | ⟨_, _, _, rfl⟩ := hw.2.2.2.2.1 hl <;> simp
        · exact hb hl
    | rel l k =>
        by_cases hl : l = .wait
        · subst hl
          exact barren_of_not_wait hw.1 hw.2.1
        · exact hb hl
    | enter i hwf hres => exact barren_of_not_wait hwf (by simp [hres.locks hwf])
    | alloc | dispatch | leave | back => trivial
  · rw [hi.pcOf_step hs hh]
    exact (hf.barren h').mono hx

end Step

theorem fresh_step {s s' : State n} {a : Label n} (hi : Inv s) (hf : Fresh s)
    (hs : (system n).step s a s') (hc : NoWrap s a) : Fresh s' := by
  obtain ⟨hn, he⟩ := hs
  have hstep := next_step hn
  have hne : ∀ p i, s.pcOf a.hart = .paPid p i → s.currPid ≠ -1 := by
    intro p i hp h1
    have hne := hi.choice_ne_timer (l := .pid) hn (by simp [hp])
    exact hc (by simp [he, emit, hne, hp, h1])
  refine ⟨?_, hf.new.step hi hstep ?_, pid_ne_step hi hf hstep, barren_step hi hf hstep⟩
  · rcases currPid_step hstep with he | ⟨p, i, hp, he⟩
    · rw [he]
      exact hf.range
    · rw [he]
      exact hf.range.succPid (hne p i hp)
  · intro p i hp
    refine ⟨hne p i hp, fun h1 => ?_⟩
    have := hf.range
    rw [h1] at this
    simp [Unwrapped] at this

theorem fresh_reachable {s : State n} (hr : ((system n).restrict NoWrap).Reachable s) :
    Fresh s := by
  refine hr.invariant ?_ ?_
  · rintro _ rfl
    refine ⟨by simp [boot, Unwrapped], by simp [boot, NewPids], fun q => ?_, ?_⟩
    · simp only [boot]
      split <;> simp
    · simp [boot, State.pcOf]
  · rintro s a s' hr hf ⟨hc, hs⟩
    exact fresh_step (inv_reachable hr.of_restrict) hf hs hc

end Wl00.Sched
