import Mathlib.Algebra.BigOperators.Fin
import Mathlib.Algebra.Order.BigOperators.Group.Finset
import Wl00.Sched.Interrupts

/-!
# Every READY process gets its turn

Each hart runs its own `scheduler` over the one process table.  A pass looks at the slots in
order, and the next pass begins again with slot 0.  How often can other processes be preferred
to one that is READY?

* `Pc.scanned`, `ahead` — how far a pass has come, and how many slots are still ahead of `p`.
* `Step.ahead_le` — while `p` is READY no scheduler goes past it, so that number never grows.
* `round_robin` — while a process is READY, no hart picks another process more than once.
-/

namespace Wl00.Sched

variable {n : Nat}

/-- The slots that the pass of a scheduler has behind it; a pass that has ended has all of
them. -/
@[simp] def Pc.scanned : Pc → Nat
  | .acq _ k | .rel _ k | .mm k | .trapYield _ k | .sret k | .wakeup _ _ k | .sched k
  | .schedRet _ k | .clockTick k | .wakeCheck _ _ k | .yieldSet _ k | .sleepSet _ _ _ k
  | .sleepWake _ _ k | .release _ _ k => scanned k
  | .schedScan i => min i NPROC
  | .schedCheck i => i
  | .schedSwtch i | .schedBack i | .schedReap i => i + 1
  | _ => NPROC

/-- How many slots a scheduler that has `i` slots behind it will look at before `p`. -/
def ahead (p : Slot) (i : Nat) : Nat := if i ≤ p then p - i else p + NPROC - i

/-- A scheduler goes past a slot other than `p`. -/
theorem ahead_succ {p q : Slot} (hq : q ≠ p) : ahead p (q + 1) < ahead p q := by
  have hp := p.isLt
  have hlt := q.isLt
  have hne : q.val ≠ p.val := fun he => hq (Fin.ext he)
  unfold ahead
  split <;> split <;> omega

/-- A pass that has ended is one that is about to begin. -/
theorem ahead_end (p : Slot) : ahead p NPROC = ahead p 0 := by
  have hp := p.isLt
  unfold ahead
  split <;> split <;> omega

/-! ## One step -/

section Step

variable {s s' : State n} {h h' : Fin n} {p : Slot} {pc k : Pc}

theorem scanned_clockintr (h : Fin n) (k : Pc) : (clockintr h k).scanned = k.scanned := by
  unfold clockintr
  split <;> rfl

theorem Silent.ahead_le (hk : Silent s h pc k) (hw : pc.Wf none)
    (hp : (s.procs p).state = .ready) : ahead p k.scanned ≤ ahead p pc.scanned := by
  cases hk
  case timerKernel => simp [scanned_clockintr]
  case schedOff =>
    simp only [Pc.scanned, Nat.zero_min]
    exact (ahead_end p).ge
  case schedScanNext i hi => simp [Nat.min_eq_left hi.le]
  case schedScanEnd i hi => simp [Nat.min_eq_right hi]
  case schedCheckNo i hne =>
    -- the slot that it goes past is not that of `p`
    have hip : i ≠ p := fun he => hne (he ▸ hp)
    have hlt := (ahead_succ hip).le
    simpa [Nat.min_eq_left i.isLt] using hlt
  case schedReap i _ _ | schedReapNo i _ =>
    simp only [Pc.scanned, Nat.min_eq_left (Nat.succ_le_of_lt i.isLt), le_refl]
  all_goals simp_all

theorem Update.scanned {i : Slot} {q : Proc} (hu : Update s h pc i q k) (hw : pc.Wf none) :
    k.scanned = pc.scanned := by
  cases hu <;> simp_all

/-- **No scheduler goes past a READY process.** -/
theorem Step.ahead_le (hs : Step s h s') (hi : Inv s) (hp : (s.procs p).state = .ready)
    (hd : ∀ i, s.pcOf h = .schedCheck i → (s.procs i).state = .ready → i ≠ p) (h' : Fin n) :
    ahead p (s'.spc h').scanned ≤ ahead p (s.spc h').scanned := by
  have hw := hi.wf h
  have hset : ∀ (s₁ : State n) (k : Pc), s₁.spc = s.spc → s₁.cur = s.cur →
      (s.cur h = none → ahead p k.scanned ≤ ahead p (s.pcOf h).scanned) →
      ahead p ((s₁.setPc h k).spc h').scanned ≤ ahead p (s.spc h').scanned := by
    intro s₁ k hspc hcur hk
    rw [State.spc_setPc, hspc, hcur]
    split
    · next hc =>
      rw [hc.2, ← s.pcOf_none hc.1]
      exact hk hc.1
    · exact le_rfl
  cases hs with
  | silent hk =>
      refine hset _ _ rfl rfl fun hc => ?_
      rw [hc] at hw
      exact hk.ahead_le hw hp
  | update hu =>
      refine hset _ _ rfl rfl fun hc => ?_
      rw [hc] at hw
      exact (congrArg (ahead p) (hu.scanned hw)).le
  | acq hpc | rel hpc => exact hset _ _ rfl rfl fun _ => by simp [hpc]
  | alloc hpc =>
      refine hset _ _ rfl rfl fun hc => ?_
      rw [hc, hpc] at hw
      simp at hw
  | @dispatch i hpc hst =>
      refine hset _ _ rfl rfl fun _ => ?_
      rw [hpc]
      exact (ahead_succ (hd i hpc hst)).le
  | @enter i hpc =>
      have hc := Inv.cur_eq_none hi.toRunInv hpc fun t ht => ht
      rw [s.pcOf_none hc] at hpc
      by_cases hh : h' = h
      · subst hh
        simp [hpc]
      · simp [hh]
  | leave => exact le_rfl
  | back hpc => exact hset _ _ rfl rfl fun _ => by simp [hpc]
  | panic hpan => exact absurd hpan hi.not_panics

end Step

/-! ## The processes that are preferred -/

/-- How often each hart has picked each process since `p` has become READY. -/
def noteBypass (p : Slot) (s : State n) (a : Label n) (g : Fin n → Slot → Nat) : Fin n → Slot → Nat :=
  if (s.procs p).state = .ready then
    match s.pcOf a.hart with
    | .schedCheck q =>
        if (s.procs q).state = .ready then
          Function.update g a.hart (Function.update (g a.hart) q (g a.hart q + 1))
        else g
    | _ => g
  else fun _ _ => 0

/-- A process that has been preferred to `p` is behind the scheduler that has picked it. -/
structure Passed (p : Slot) (s : State n) (g : Fin n → Slot → Nat) : Prop where
  self : ∀ h, g h p = 0
  behind : ∀ h q, g h q = 0 ∨ g h q = 1 ∧ ahead p (s.spc h).scanned < ahead p q

theorem passed_zero (p : Slot) (s : State n) : Passed p s fun _ _ => 0 :=
  ⟨fun _ => rfl, fun _ _ => .inl rfl⟩

/-- The counts have not changed. -/
theorem Passed.mono {s s' : State n} {p : Slot} {g : Fin n → Slot → Nat} (hg : Passed p s g)
    (hle : ∀ h, ahead p (s'.spc h).scanned ≤ ahead p (s.spc h).scanned) : Passed p s' g := by
  refine ⟨hg.self, fun h q => ?_⟩
  rcases hg.behind h q with h0 | ⟨h1, hlt⟩
  · exact .inl h0
  · exact .inr ⟨h1, (hle h).trans_lt hlt⟩

/-- A hart picks process `q`. -/
theorem Passed.pick {s s' : State n} {h : Fin n} {p q : Slot} {g : Fin n → Slot → Nat}
    (hg : Passed p s g) (hq : q ≠ p) (hscan : (s.spc h).scanned = q)
    (hlt : ahead p (s'.spc h).scanned < ahead p q)
    (hle : ∀ h, ahead p (s'.spc h).scanned ≤ ahead p (s.spc h).scanned) :
    Passed p s' (Function.update g h (Function.update (g h) q (g h q + 1))) := by
  have hmono := hg.mono hle
  -- it has not picked it before: it would have gone past it
  have h0 : g h q = 0 := by
    rcases hg.behind h q with h0 | ⟨-, hbehind⟩
    · exact h0
    · rw [hscan] at hbehind
      exact absurd hbehind (lt_irrefl _)
  constructor
  · intro h'
    by_cases hh : h' = h
    · subst hh
      rw [Function.update_self, Function.update_of_ne (Ne.symm hq)]
      exact hg.self h'
    · rw [Function.update_of_ne hh]
      exact hg.self h'
  · intro h' q'
    by_cases hh : h' = h
    · subst hh
      rw [Function.update_self]
      by_cases hqq : q' = q
      · subst hqq
        rw [Function.update_self, h0]
        exact .inr ⟨rfl, hlt⟩
      · rw [Function.update_of_ne hqq]
        exact hmono.behind h' q'
    · rw [Function.update_of_ne hh]
      exact hmono.behind h' q'

/-- A scheduler that looks at a READY process picks it. -/
theorem Step.of_ready {s s' : State n} {h : Fin n} {q : Slot} (hs : Step s h s') (hi : Inv s)
    (hpc : s.pcOf h = .schedCheck q) (hst : (s.procs q).state = .ready) :
    (s'.procs q).state = .running ∧ s'.spc h = .schedSwtch q := by
  have hcur := Inv.cur_eq_none hi.toRunInv hpc fun t ht => ht
  cases hs with
  | silent hk =>
      rw [hpc] at hk
      cases hk with
      | timerKernel _ hsie _ =>
          have hl := hi.locks_eq_empty hsie
          simp [hpc] at hl
      | schedCheckNo _ hne => exact absurd hst hne
  | update hu =>
      rw [hpc] at hu
      cases hu
  | dispatch hpc' hst' =>
      obtain rfl : q = _ := by simpa using hpc.symm.trans hpc'
      simp [State.spc_setPc, State.setCproc, State.setProc, hcur]
  | leave hl =>
      simp [hpc, Leaves] at hl
  | panic hpan => exact absurd hpan hi.not_panics
  | acq hpc' | rel hpc' | alloc hpc' | enter hpc' | back hpc' => cases hpc.symm.trans hpc'

theorem passed_step {s s' : State n} {a : Label n} {p : Slot} {g : Fin n → Slot → Nat} (hi : Inv s)
    (hs : Step s a.hart s') (hg : (s.procs p).state = .ready → Passed p s g)
    (hp' : (s'.procs p).state = .ready) : Passed p s' (noteBypass p s a g) := by
  unfold noteBypass
  split
  · next hp =>
    -- a scheduler that looks at `p` itself makes it RUNNING
    have hd : ∀ i, s.pcOf a.hart = .schedCheck i → (s.procs i).state = .ready → i ≠ p := by
      rintro i hpc hst rfl
      rw [(hs.of_ready hi hpc hst).1] at hp'
      cases hp'
    have hle := hs.ahead_le hi hp hd
    split
    · next q hpc =>
      split
      · next hst =>
        have hq := hd q hpc hst
        have hcur := Inv.cur_eq_none hi.toRunInv hpc fun t ht => ht
        rw [s.pcOf_none hcur] at hpc
        refine (hg hp).pick hq (by rw [hpc]; rfl) ?_ hle
        rw [(hs.of_ready hi (by rw [s.pcOf_none hcur, hpc]) hst).2]
        exact ahead_succ hq
      · exact (hg hp).mono hle
    · exact (hg hp).mono hle
  · exact passed_zero p s'

theorem passed_reachable {p : Slot} {s : State n} {g : Fin n → Slot → Nat}
    (hr : ((system n).watch (fun _ _ => 0) (noteBypass p)).Reachable (s, g)) :
    (s.procs p).state = .ready → Passed p s g := by
  refine hr.invariant (I := fun x => (x.1.procs p).state = .ready → Passed p x.1 x.2) ?_ ?_
  · rintro ⟨s, g⟩ ⟨-, rfl⟩ -
    exact passed_zero p s
  · rintro ⟨s, g⟩ a ⟨s', g'⟩ hr hg ⟨⟨hn, -⟩, rfl⟩
    exact passed_step (inv_reachable hr.of_watch) (next_step hn) hg

/-- While a process waits in state READY, no hart picks any other process more than once: with
`n` harts it is preceded at most `n * (NPROC - 1)` times. -/
theorem round_robin {p : Slot} {s : State n} {g : Fin n → Slot → Nat}
    (hr : ((system n).watch (fun _ _ => 0) (noteBypass p)).Reachable (s, g))
    (hp : (s.procs p).state = .ready) :
    (∀ h q, g h q ≤ 1) ∧ ∑ h, ∑ q, g h q ≤ n * (NPROC - 1) := by
  have hg := passed_reachable hr hp
  have hle : ∀ h q, g h q ≤ 1 := by
    intro h q
    rcases hg.behind h q with h0 | ⟨h1, -⟩
    · exact h0.le.trans (Nat.zero_le 1)
    · exact h1.le
  refine ⟨hle, ?_⟩
  -- the hart has picked at most each of the others
  have hhart : ∀ h, ∑ q, g h q ≤ NPROC - 1 := by
    intro h
    calc ∑ q, g h q = ∑ q ∈ Finset.univ.erase p, g h q :=
          (Finset.sum_erase _ (hg.self h)).symm
      _ ≤ (Finset.univ.erase p).card • 1 := Finset.sum_le_card_nsmul _ _ _ fun q _ => hle h q
      _ = NPROC - 1 := by simp [Finset.card_erase_of_mem]
  calc ∑ h, ∑ q, g h q ≤ (Finset.univ : Finset (Fin n)).card • (NPROC - 1) :=
        Finset.sum_le_card_nsmul _ _ _ fun h _ => hhart h
    _ = n * (NPROC - 1) := by simp

/-- Hart 1 has run `init`, which has forked and been preempted; hart 0 now prefers `init` to its
child. -/
theorem round_robin_preferred : ∃ (s : State 2) (g : Fin 2 → Slot → Nat),
    ((system 2).watch (fun _ _ => 0) (noteBypass 1)).Reachable (s, g) ∧
      (s.procs 1).state = .ready ∧ g 0 0 = 1 ∧ (∀ h q, g h q ≤ 1) ∧
      ∑ h, ∑ q, g h q ≤ 2 * (NPROC - 1) := by
  have hrun : (runWatched (noteBypass 1) (boot 2, fun _ _ => 0)
      (goes 1 9 ++ [(1, .fork)] ++ goes 1 24 ++ [(1, .timer)] ++ goes 1 6 ++ goes 0 5)).map
        (fun x => ((x.1.procs 1).state, x.2 0 0)) = some (.ready, 1) := by
    decide +kernel
  obtain ⟨⟨s, g⟩, hx, he⟩ := Option.map_eq_some_iff.1 hrun
  simp only [Prod.mk.injEq] at he
  have h0 : ((system 2).watch (fun _ _ => 0) (noteBypass 1)).Reachable (boot 2, fun _ _ => 0) :=
    .start ⟨rfl, rfl⟩
  have hr := reachable_runWatched rfl h0 hx
  exact ⟨s, g, hr, he.1, he.2, round_robin hr he.1⟩

end Wl00.Sched
