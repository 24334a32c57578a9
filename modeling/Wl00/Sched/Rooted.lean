import Mathlib.Logic.Relation
import Wl00.Sched.Reap
import Wl00.Sched.Tree

/-!
# The process tree is rooted at `init`

`user/init.c` never returns from `main`.  As long as `init` neither exits nor faults, `kexit`
finds it first, in slot 0, whatever pids there are besides, and hands every orphan to it.  So
the parent pointers make a tree: from every process they lead to `init`.

* `Heir` — what a thread in `kexit` knows: its reaper is slot 0, and which children have been
  handed over.
* `Rooted` — the invariant, with the chain of parents of every process.
* `process_tree` — the tree, and that no process is ever left for the scheduler or for `kexit`
  to release.
-/

namespace Wl00.Sched

variable {n : Nat}

/-- `init` neither calls `exit` nor faults. -/
def InitStays (_ : State n) (a : Label n) : Prop :=
  match a.event with
  | .exit q _ => q.val ≠ 0
  | _ => True

instance (s : State n) (a : Label n) : Decidable (InitStays s a) :=
  decidable_of_iff ((match a.event with
    | .exit q _ => decide (q.val ≠ 0)
    | _ => true) = true) (by unfold InitStays; cases a.event <;> simp)

/-- `r` is the parent of `q`. -/
def ParentOf (s : State n) (q r : Slot) : Prop := (s.procs q).parent = some r

theorem nproc_pos : 0 < NPROC := by decide

/-- The parents of `q`, one after another, lead to `init`. -/
def Descends (s : State n) (q : Slot) : Prop := Relation.ReflTransGen (ParentOf s) q ⟨0, nproc_pos⟩

/-! ## What a thread in `kexit` knows -/

/-- The reaper search ends at slot 0; the slots that the loop over the children has gone
through have other parents. -/
@[simp] def Heir (s : State n) : Pc → Prop
  | .acq l k | .rel l k => l ≠ .wait → Heir s k
  | .wakeup _ _ k | .wakeCheck _ _ k | .release _ _ k => Heir s k
  | .exitScan _ _ i => i = 0
  | .exitScanState _ _ i => i.val = 0
  | .exitChildren p _ r i _ =>
    r = some ⟨0, nproc_pos⟩ ∧ ∀ q : Slot, q.val < i → (s.procs q).parent ≠ some p
  | .exitHand p _ r i _ => r = some ⟨0, nproc_pos⟩ ∧ ∀ q, q < i → (s.procs q).parent ≠ some p
  | .exitParent p _ | .exitParentArg p _ | .exitZombie p _ => ∀ q, (s.procs q).parent ≠ some p
  | _ => True

theorem heir_of_not_wait {s : State n} {k : Pc} (hl : .wait ∉ k.locks) : Heir s k := by
  induction k with
  | acq l k ih => exact fun hne => ih fun hm => hl (by simp [hm, Ne.symm hne])
  | rel l k ih => exact fun _ => ih fun hm => hl (by simp [hm])
  | wakeup c i k ih | release q r k ih => exact ih hl
  | wakeCheck c i k ih => exact ih fun hm => hl (by simp [hm])
  | _ => simp_all

/-- What a thread knows is about parents only. -/
theorem Heir.congr {s s' : State n} {k : Pc} (hk : Heir s k)
    (hp : ∀ q, (s'.procs q).parent = (s.procs q).parent) : Heir s' k := by
  induction k with
  | acq l k ih | rel l k ih => exact fun hne => ih (hk hne)
  | wakeup c i k ih | wakeCheck c i k ih | release q r k ih => exact ih hk
  | _ => simp_all

/-- What holds as long as `init` stays. -/
structure Rooted (s : State n) : Prop where
  live : (s.procs 0).state.Live
  pid : (s.procs 0).pid = 1
  top : (s.procs 0).parent = none
  stays : (s.tpc 0).exiting = none
  heir : ∀ h, Heir s (s.pcOf h)
  parent : ∀ q r, (s.procs q).parent = some r → (s.procs r).state.Live
  descends : ∀ q, (s.procs q).state.Alive → Descends s q

section Step

variable {s s' : State n} {h : Fin n}

/-- A thread in `kexit` is not `init`'s. -/
theorem Rooted.ne_init (hr : Rooted s) {p : Slot} (hu : s.cur h = some p)
    (hx : (s.pcOf h).exiting ≠ none) : p ≠ 0 := by
  rintro rfl
  rw [s.pcOf_some hu] at hx
  exact hx hr.stays

theorem Silent.heir {pc k : Pc} {t : Option Slot} (hk : Silent s h pc k) (hw : pc.Wf t)
    (hr : Rooted s) (hne : ∀ p, t = some p → pc.exiting ≠ none → p ≠ 0) (ha : Heir s pc) :
    Heir s k := by
  cases hk
  case timerUser | timerKernel =>
    unfold clockintr
    split <;> simp
  case mm | sret => exact heir_of_not_wait (by simp [hw.2.2])
  case trapYieldNo => exact heir_of_not_wait (by simp [hw.2.2.1])
  case schedRet =>
    obtain ⟨p, -, hl⟩ := hw.2.2.2.2
    exact heir_of_not_wait (by simp [hl])
  case clockTick k => exact fun _ => heir_of_not_wait (by simp [hw.2.2])
  case wakeupNext | wakeCheckNo => exact fun _ => ha
  case wakeupEnd => exact ha
  case releaseMem => exact fun _ _ => ha
  -- the reaper search: slot 0 is `init`
  case exitScanFound p st i hi _ _ =>
    obtain rfl : i = 0 := ha
    rfl
  case exitScanNo p st i hi hno =>
    obtain rfl : i = 0 := ha
    exact absurd ⟨hr.pid, (hne p hw (by simp)).symm⟩ hno
  case exitScanEnd p st i hi =>
    obtain rfl : i = 0 := ha
    simp at hi
  case exitScanTake p st i _ =>
    obtain rfl : i = 0 := Fin.ext ha
    exact ⟨rfl, by simp⟩
  case exitScanZombie p st i hz =>
    obtain rfl : i = 0 := Fin.ext ha
    exact absurd hz hr.live.2
  -- the loop over the children
  case exitChild => exact fun _ => ha
  case exitChildNo p st r i hi g hno =>
    refine ⟨ha.1, fun q hq => ?_⟩
    rcases Nat.lt_succ_iff_lt_or_eq.1 hq with hq | hq
    · exact ha.2 q hq
    · obtain rfl : q = ⟨i, hi⟩ := Fin.ext hq
      exact hno
  case exitChildEndWake p st r i hi => exact fun q => ha.2 q (q.isLt.trans_le hi)
  case exitChildEnd p st r i hi => exact fun q => ha.2 q (q.isLt.trans_le hi)
  case exitParentNone => exact fun _ => ha
  case exitParent => exact ha
  case exitParentArg => exact fun _ => ha
  all_goals simp [failFork, reap]

theorem Update.heir {pc k : Pc} {i : Slot} {q : Proc} {t : Option Slot}
    (hu : Update s h pc i q k) (hw : pc.Wf t)
    (hne : ∀ p, t = some p → pc.exiting ≠ none → p ≠ 0) (ha : Heir s pc)
    (hp : s'.procs = Function.update s.procs i q) : Heir s' k := by
  -- the loop over the children has one more slot behind it
  have hhand : ∀ p r st g g', Heir s (.exitHand p st r i g) → p ≠ 0 → q.parent = r →
      Heir s' (.exitChildren p st r (i + 1) g') := by
    rintro p r st g g' ⟨hr, hkids⟩ hp0 hpar
    refine ⟨hr, fun j hj => ?_⟩
    rw [hp]
    rcases Nat.lt_succ_iff_lt_or_eq.1 hj with hj | hj
    · rw [Function.update_of_ne (Fin.ne_of_lt hj)]
      exact hkids j hj
    · obtain rfl := Fin.ext hj
      rw [Function.update_self, hpar, hr]
      exact fun he => hp0 (Option.some.inj he).symm
  cases hu with
  | wake c _ k hch hst =>
      refine fun _ => Heir.congr (s := s) ha fun x => ?_
      rw [hp]
      by_cases hxi : x = i
      · subst hxi; simp
      · simp [hxi]
  | release _ r k hl =>
      cases r with
      | wait p => obtain ⟨v, rfl⟩ := hw.2; simp
      | kexit p =>
          obtain ⟨st, g, rfl⟩ := hw.2
          have := (ha (by simp)).1
          simp at this
      | sched => obtain rfl := hw.2; simp
      | fail p => obtain rfl := hw.2; simp
  | handNone p st g hz | handRelease p st g hz =>
      have := ha.1
      simp at this
  | hand p st r _ g hz | handZombie p st r _ g hz =>
      exact fun _ => hhand p _ st g _ ha (hne p hw (by simp)) rfl
  | awake p lk k =>
      obtain ⟨-, c, hs⟩ := hw
      obtain ⟨-, rfl, a, rfl⟩ | ⟨-, rfl, m, st, rfl⟩ := hs <;> simp
  | _ => simp

theorem Rooted.heir_step (hr : Rooted s) (hi : Inv s) (hf : Family s) (hs : Step s h s')
    (h' : Fin n) : Heir s' (s'.pcOf h') := by
  by_cases hh : h' = h
  · subst hh
    have hw := hi.wf h'
    have ha := hr.heir h'
    have hne := fun p hu hx => hr.ne_init (h := h') (p := p) hu hx
    obtain ⟨pc, procs, k, hpc, hprocs, hk, hm⟩ := hi.move hs
    rw [hk]
    rw [hpc] at hw ha hne
    cases hm with
    | silent hsil => exact (hsil.heir hw hr hne ha).congr (by simp [hprocs])
    | update hu => exact hu.heir hw hne ha hprocs
    | acq l k _ =>
        by_cases hl : l = .wait
        · obtain ⟨_, _, rfl⟩ | ⟨_, _, rfl⟩ | ⟨_, _, _, rfl⟩ := hw.2.2.2.2.1 hl <;> simp
        · exact (ha hl).congr (by simp [hprocs])
    | rel l k =>
        by_cases hl : l = .wait
        · subst hl
          exact heir_of_not_wait hw.2.1
        · exact (ha hl).congr (by simp [hprocs])
    | enter i hwf hres => exact heir_of_not_wait (by simp [hres.locks hwf])
    | alloc | dispatch | leave | back => trivial
  · rw [hi.pcOf_step hs hh]
    by_cases hl : .wait ∈ (s.pcOf h').locks
    · have hl' : .wait ∉ (s.pcOf h).locks := fun hl' => hh (hi.lock_inj hl hl')
      exact (hr.heir h').congr (hf.parent_step hi hs hl')
    · exact heir_of_not_wait hl

/-! ## The parents -/

/-- How the parent of a slot changes: `fork` publishes a child of its caller, `kexit` hands one
to `init`, and a released slot has none. -/
inductive Adopts (s s' : State n) (h : Fin n) (q : Slot) : Prop
  | keep : (s'.procs q).parent = (s.procs q).parent → Adopts s s' h q
  | fork (p v) : s.pcOf h = .forkPublish p q v → (s'.procs q).parent = some p → Adopts s s' h q
  | hand : (s'.procs q).parent = some 0 → Adopts s s' h q
  | release : ¬(s'.procs q).state.Alive → (s'.procs q).parent = none → Adopts s s' h q

theorem Rooted.adopts (hr : Rooted s) (hi : Inv s) (hs : Step s h s') (q : Slot) :
    Adopts s s' h q := by
  have hw := hi.wf h
  have ha := hr.heir h
  rcases hi.proc_step hs q with he | hu | ⟨-, -, he⟩
  · exact .keep (by rw [he])
  · generalize hq : s'.procs q = x at hu
    generalize s'.pcOf h = k at hu
    generalize hpc : s.pcOf h = pc at hu hw ha
    cases hu with
    | publish p _ v => exact .fork p v hpc (by rw [hq])
    | hand p st r | handZombie p st r => exact .hand (by rw [hq]; exact ha.1)
    | handNone p st | handRelease p st =>
        have := ha.1
        simp at this
    | release => exact .release (by simp [hq, releaseproc, ProcState.Alive]) (by rw [hq]; rfl)
    | _ => exact .keep (by rw [hq])
  · exact .keep (by rw [he])

/-- Nobody but `init`'s own thread could end `init`. -/
theorem Rooted.exitZombie_ne (hr : Rooted s) (hi : Inv s) (st : Int) :
    s.pcOf h ≠ .exitZombie 0 st := by
  intro hp
  have hw := hi.wf h
  rw [hp] at hw
  exact hr.ne_init hw (by simp [hp]) rfl

theorem Rooted.parent_step (hr : Rooted s) (hi : Inv s) (hs : Step s h s') (q r : Slot)
    (hp : (s'.procs q).parent = some r) : (s'.procs r).state.Live := by
  have hlive : ∀ x, (s.procs x).state.Live → (∀ st, s.pcOf h ≠ .exitZombie x st) →
      (s'.procs x).state.Live := by
    intro x hx hne
    rcases live_step hi hs hx with ⟨hl, -, -⟩ | ⟨st, he⟩
    · exact hl
    · exact absurd he (hne st)
  cases hr.adopts hi hs q with
  | keep he =>
      rw [he] at hp
      refine hlive r (hr.parent q r hp) fun st hz => ?_
      -- a process that becomes a zombie has no child left
      have ha := hr.heir h
      rw [hz] at ha
      exact ha q hp
  | fork p v hpc he =>
      obtain rfl := Option.some.inj (he.symm.trans hp)
      have hw := hi.wf h
      rw [hpc] at hw
      have hrun := hi.running_of_plain hw (by simp [hpc])
      exact hlive p (by simp [hrun, ProcState.Live, ProcState.Alive]) (by simp [hpc])
  | hand he =>
      obtain rfl := Option.some.inj (he.symm.trans hp)
      exact hlive 0 hr.live (hr.exitZombie_ne hi)
  | release _ he => simp [he] at hp

/-- A live process is still there after a step. -/
theorem Inv.alive_of_live (hi : Inv s) (hs : Step s h s') {x : Slot}
    (hx : (s.procs x).state.Live) : (s'.procs x).state.Alive := by
  rcases Sched.alive_step hi hs hx.1 with ⟨ha, -⟩ | ⟨r, hp, -, hne⟩
  · exact ha
  · have hz := hi.frees h x
    rw [hp] at hz
    cases r with
    | fail p => exact absurd rfl (hne p)
    | _ => exact absurd (hz rfl) hx.2

/-- The parents still lead to `init`: an edge of the tree goes only when its child is released or
handed to `init`, and nobody has a released slot for a parent. -/
theorem Rooted.descends_old (hr : Rooted s) (hi : Inv s) (hf : Family s) (hs : Step s h s')
    {q : Slot} (hd : Descends s q) : (s'.procs q).state.Alive → Descends s' q := by
  induction hd using Relation.ReflTransGen.head_induction_on with
  | refl => exact fun _ => .refl
  | @head q r hqr _ ih =>
      intro ha
      cases hr.adopts hi hs q with
      | keep he =>
          have hr' := ih (hi.alive_of_live hs (hr.parent q r hqr))
          exact .head (b := r) (he.trans hqr) hr'
      | fork p v hpc he =>
          have hst := (hi.claim_own (h := h) (i := q) (b := true) (by rw [hpc]; rfl)).1
          have hnone := hf.fresh q (by simp [hst, ProcState.Alive])
          rw [ParentOf, hnone] at hqr
          cases hqr
      | hand he => exact .single he
      | release hn _ => exact absurd ha hn

theorem Rooted.descends_step (hr : Rooted s) (hi : Inv s) (hf : Family s) (hs : Step s h s')
    (q : Slot) (ha : (s'.procs q).state.Alive) : Descends s' q := by
  rcases hi.alive_step hs ha with ha' | ⟨p, v, hpc⟩
  · exact hr.descends_old hi hf hs (hr.descends q ha') ha
  · -- a new child hangs below its parent
    have hw := hi.wf h
    rw [hpc] at hw
    have hlive : (s.procs p).state.Live := by
      simp [hi.running_of_plain hw (by simp [hpc]), ProcState.Live, ProcState.Alive]
    have hp := hr.descends_old hi hf hs (hr.descends p hlive.1) (hi.alive_of_live hs hlive)
    refine .head (b := p) ?_ hp
    rcases hi.proc_step hs q with he | hu | ⟨hc, -, -⟩
    · have hst := (hi.claim_own (h := h) (i := q) (b := true) (by rw [hpc]; rfl)).1
      rw [he] at ha
      exact absurd hst ha.2
    · rw [ParentOf]
      generalize s'.procs q = x, s'.pcOf h = k at hu ⊢
      rw [hpc] at hu
      cases hu
      rfl
    · rw [hpc] at hc
      cases hc

/-! ## `init` stays -/

theorem Rooted.top_step (hr : Rooted s) (hi : Inv s) (hf : Family s) (hs : Step s h s') :
    (s'.procs 0).parent = none := by
  have hchild := hf.child h 0
  have hw := hi.wf h
  have hnew := fun b hb => (hi.claim_own (h := h) (i := 0) (b := b) hb).1
  have hno : ∀ p, ¬(s.pcOf h).child = some (0, p) := by
    intro p hp
    have := hchild p hp
    rw [hr.top] at this
    cases this
  rcases hi.proc_step hs 0 with he | hu | ⟨-, -, he⟩
  · rw [he, hr.top]
  · generalize s'.procs 0 = x, s'.pcOf h = k at hu ⊢
    generalize s.pcOf h = pc at hu hnew hno
    cases hu with
    | publish p _ v => exact absurd (hnew true rfl) hr.live.1.2
    | hand p | handZombie p => exact absurd rfl (hno p)
    | handNone | handRelease | release => rfl
    | _ => exact hr.top
  · rw [he]
    exact hr.top

end Step

theorem rooted_step {s s' : State n} {a : Label n} (hr : Rooted s) (hi : Inv s) (hf : Family s)
    (hs : (system n).step s a s') (hc : InitStays s a) : Rooted s' := by
  obtain ⟨hn, he⟩ := hs
  have hstep := next_step hn
  have hinit : (s'.procs 0).state.Live ∧ (s'.procs 0).pid = (s.procs 0).pid := by
    rcases live_step hi hstep hr.live with ⟨hl, hp, -⟩ | ⟨st, hz⟩
    · exact ⟨hl, hp⟩
    · exact absurd hz (hr.exitZombie_ne hi st)
  have hstays : (s'.tpc 0).exiting = none := by
    by_cases hu : s.cur a.hart = some 0
    · obtain ⟨hm, hev⟩ := hi.thread_step hn hu
      have hw := (step_inv hi hstep).wfT 0 hinit.1.1
      by_contra hx
      obtain ⟨st, hst⟩ := Option.ne_none_iff_exists'.1 hx
      rcases hm.exiting hw hst with hold | ⟨-, hev'⟩
      · rw [hr.stays] at hold
        cases hold
      · rw [InitStays, he, hev, hev'] at hc
        exact hc rfl
    · rcases hi.tpc_step_other hstep hu with ht | ⟨-, ht⟩
      · rw [ht, hr.stays]
      · rw [ht]
        rfl
  exact ⟨hinit.1, hinit.2.trans hr.pid, hr.top_step hi hf hstep, hstays, hr.heir_step hi hf hstep,
    hr.parent_step hi hstep, hr.descends_step hi hf hstep⟩

theorem rooted_boot : Rooted (boot n) := by
  refine ⟨?_, rfl, rfl, rfl, fun h => ?_, fun q r hp => ?_, fun q ha => ?_⟩
  · simp [boot, ProcState.Live, ProcState.Alive]
  · simp [boot, State.pcOf]
  · simp [boot] at hp
  · obtain rfl : q = 0 := by
      by_contra hq
      simp only [boot, ProcState.Alive, Fin.val_eq_zero_iff, if_neg hq, ne_eq, not_true_eq_false,
        false_and] at ha
    exact .refl

theorem rooted_reachable {s : State n} (hr : ((system n).restrict InitStays).Reachable s) :
    Rooted s := by
  refine hr.invariant ?_ ?_
  · rintro _ rfl
    exact rooted_boot
  · rintro s a s' hr hi ⟨hc, hs⟩
    exact rooted_step hi (inv_reachable hr.of_restrict) (family_reachable hr.of_restrict) hs hc

/-! ## The tree -/

/-- A slot without a parent is not below itself. -/
theorem not_transGen_of_descends {s : State n} (htop : (s.procs 0).parent = none) {q : Slot}
    (hd : Descends s q) : ¬Relation.TransGen (ParentOf s) q q := by
  -- a circle through `q` goes through the parent of `q` as well, and in the end through `init`
  induction hd using Relation.ReflTransGen.head_induction_on with
  | refl =>
      intro hc
      obtain ⟨r, hr, -⟩ := Relation.TransGen.head'_iff.1 hc
      cases htop.symm.trans hr
  | @head q r hqr _ ih =>
      intro hc
      obtain ⟨r', hr', hback⟩ := Relation.TransGen.head'_iff.1 hc
      obtain rfl := Option.some.inj (hqr.symm.trans hr')
      exact ih (Relation.TransGen.tail' hback hqr)

/-- **The processes are a tree with `init` at its root**, in every run of any number of harts in
which `init` neither exits nor faults, even if the pids wrap.  From every process the parents
lead to `init`, never in a circle, and every parent is live; so the parent, or `init`, is there
to reap it, and neither the scheduler nor `kexit` ever releases a process. -/
theorem process_tree {s : State n} (hr : ((system n).restrict InitStays).Reachable s) :
    (∀ q, (s.procs q).state.Alive → Relation.ReflTransGen (ParentOf s) q 0) ∧
    (∀ q, (s.procs q).state.Alive → ¬Relation.TransGen (ParentOf s) q q) ∧
    (∀ q r, (s.procs q).parent = some r → (s.procs r).state.Live) ∧
    ∀ h q r k, s.pcOf h = .release q r k → (∃ p, r = .wait p ∧ (s.procs q).parent = some p) ∨
      ∃ p, r = .fail p ∧ (s.procs q).state = .new := by
  have hroot := rooted_reachable hr
  have hi := inv_reachable hr.of_restrict
  have hf := family_reachable hr.of_restrict
  refine ⟨hroot.descends, fun q ha => not_transGen_of_descends hroot.top (hroot.descends q ha),
    hroot.parent, fun h q r k hp => ?_⟩
  have hw := hi.wf h
  have hc := hf.child h q
  have ho := hf.orphan h q
  have hz := hi.frees h q
  have ha := hroot.heir h
  rw [hp] at hw hc ho hz ha
  cases r with
  | wait p => exact .inl ⟨p, rfl, hc p rfl⟩
  | fail p => exact .inr ⟨p, rfl, (hi.claim_own (h := h) (b := false) (by rw [hp]; rfl)).1⟩
  | kexit p =>
      obtain ⟨st, g, rfl⟩ := hw.2
      have := (ha (by simp)).1
      simp at this
  | sched =>
      -- an orphan zombie would be `init`
      have hst := hz rfl
      rcases Relation.ReflTransGen.cases_head (hroot.descends q (by simp [hst, ProcState.Alive])) with
        rfl | ⟨r, hr, -⟩
      · exact absurd hst hroot.live.2
      · rw [ParentOf, ho rfl] at hr
        cases hr

/-- `init` forks on one hart and its child on the other: the grandchild descends from `init`. -/
theorem process_tree_grandchild : ∃ s : State 2, ((system 2).restrict InitStays).Reachable s ∧
    (s.procs 2).parent = some 1 ∧ Relation.ReflTransGen (ParentOf s) 2 0 := by
  have hrun : (runWhile InitStays (boot 2) (goes 0 9 ++ [(0, .fork)] ++ goes 0 24 ++ goes 1 13 ++
      [(1, .fork)] ++ goes 1 24)).map (fun s => ((s.procs 2).parent, (s.procs 2).state)) =
      some (some 1, .ready) := by
    decide +kernel
  obtain ⟨s, hs, he⟩ := Option.map_eq_some_iff.1 hrun
  simp only [Prod.mk.injEq] at he
  have hr := reachable_runWhile (.start rfl) hs
  exact ⟨s, hr, he.1, (process_tree hr).1 2 (by simp [he.2, ProcState.Alive])⟩

end Wl00.Sched
