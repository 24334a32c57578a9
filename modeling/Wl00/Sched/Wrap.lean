import Mathlib.Data.Fintype.Pi
import Wl00.Sched.Reap

/-!
# When the pids have come round to -1

`allocpid` counts in a 32-bit `int` and `fork` takes a pid before it knows whether
there is memory for the child, so that a process whose forks fail goes through all
pids in the end.  A child that gets pid -1 is one whose release `wait` reports with
the value it has for failure.

* `solo_cycle` — a failing `fork` of `init`, which leaves only the counter advanced.
* `zombie_reaped_as_failure` — the run in which `wait` returns -1 having released a
  child.
-/

namespace Wl00.Sched

/-- A slot that has been released `g` times and is free. -/
def idle (g : Nat) : Proc :=
  { pid := 0, state := .unused, chan := none, parent := none, xstate := 0, gen := g
    origin := .none }

/-- One hart, on the stack of `init`, at `pc`; slot 1 holds `q`, and every other slot
is UNUSED. -/
def solo (pc : Pc) (q : Proc) (locks : Lock → Option (Fin 1)) (c : Spinlock.Cpu) (v : Int) :
    State 1 where
  procs := Function.update (fun i => { (boot 1).procs i with
    state := if i = 0 then .running else .unused }) 1 q
  locks := locks
  cpus _ := c
  cproc _ := some 0
  cur _ := some 0
  tpc := Function.update (fun i => .forkret i) 0 pc
  spc _ := .schedBack 0
  currPid := v
  ticks := 0

/-- No lock is taken. -/
abbrev unlocked : Lock → Option (Fin 1) := fun _ => none

/-- Outside all locks, with interrupts on. -/
abbrev enabled (b : Bool) : Spinlock.Cpu := ⟨0, b, true⟩

section Solo

variable {pc k : Pc} {q q' : Proc} {locks : Lock → Option (Fin 1)} {c c' : Spinlock.Cpu}
  {v : Int} {h : Fin 1} {b : Bool}

@[simp] theorem pcOf_solo : (solo pc q locks c v).pcOf h = pc := by
  simp [State.pcOf, solo]

@[simp] theorem setPc_solo : (solo pc q locks c v).setPc h k = solo k q locks c v := by
  simp [State.setPc, solo]

@[simp] theorem setProc_solo : (solo pc q locks c v).setProc 1 q' = solo pc q' locks c v := by
  simp [State.setProc, solo]

@[simp] theorem setCpu_solo : (solo pc q locks c v).setCpu h c' = solo pc q locks c' v := by
  have hc : Function.update (fun _ : Fin 1 => c) h c' = fun _ => c' := by
    funext i
    simp [Subsingleton.elim i h]
  simp [State.setCpu, solo, hc]

@[simp] theorem setLock_solo (l : Lock) (o : Option (Fin 1)) : (solo pc q locks c v).setLock l o =
    solo pc q (Function.update locks l o) c v := rfl

@[simp] theorem locks_solo : (solo pc q locks c v).locks = locks := rfl

@[simp] theorem cpus_solo : (solo pc q locks c v).cpus h = c := rfl

@[simp] theorem cproc_solo : (solo pc q locks c v).cproc h = some 0 := rfl

@[simp] theorem procs_solo_zero : ((solo pc q locks c v).procs 0).state = .running := rfl

@[simp] theorem procs_solo_one : (solo pc q locks c v).procs 1 = q := rfl

theorem acq_solo (l : Lock) : next (solo (.acq l k) q unlocked (enabled b) v) 0 .go =
    some (solo k q (Function.update unlocked l (some 0)) ⟨1, true, false⟩ v) := by
  simp [next, go, lock, Spinlock.pushOff]

theorem rel_solo (l : Lock) :
    next (solo (.rel l k) q (Function.update unlocked l (some 0)) ⟨1, true, false⟩ v) 0 .go =
      some (solo k q unlocked (enabled true) v) := by
  simp [next, go, unlock, Spinlock.popOff]

theorem fork_solo : next (solo .user q unlocked (enabled b) v) 0 .fork =
    some (solo (.paScan 0 0) q unlocked (enabled b) v) := by
  simp [next, go, trap, State.setSie]

theorem paScan_solo (j : Nat) (i : Slot) (hj : j = i) :
    next (solo (.paScan 0 j) q locks c v) 0 .go = some (solo (.acq (.proc i) (.paCheck 0 i)) q locks c v) := by
  subst hj
  simp [next, go]

theorem paCheck_solo_zero : next (solo (.paCheck 0 0) q locks c v) 0 .go =
    some (solo (.rel (.proc 0) (.paScan 0 1)) q locks c v) := by
  simp [next, go]

theorem paCheck_solo_one (hq : q.state = .unused) : next (solo (.paCheck 0 1) q locks c v) 0 .go =
    some (solo (.rel (.proc 1) (.acq .pid (.paPid 0 1))) { q with state := .new } locks c v) := by
  simp [next, go, hq]

theorem paPid_solo : next (solo (.paPid 0 1) q locks c v) 0 .go =
    some (solo (.rel .pid (.paSetPid 0 1 v)) q locks c (succPid v)) := by
  simp only [next, go, pcOf_solo]
  exact congrArg some setPc_solo

theorem paSetPid_solo (w : Int) : next (solo (.paSetPid 0 1 w) q locks c v) 0 .go =
    some (solo (.mm (.paAlloc 0 1)) { q with pid := w } locks c v) := by
  simp [next, go]

theorem mm_solo : next (solo (.mm k) q locks c v) 0 .go = some (solo k q locks c v) := by
  simp [next, go]

theorem paAlloc_solo : next (solo (.paAlloc 0 1) q locks c v) 0 .fail =
    some (solo (failFork 0 1) q locks c v) := by
  simp [next, go]

theorem release_solo (r : Releaser) (hl : locks (.proc 1) = some 0) :
    next (solo (.release 1 r k) q locks c v) 0 .go =
      some (solo k (releaseproc q) locks c v) := by
  simp [next, go, hl]

theorem sysret_solo (y : Sys) (w : Int) : next (solo (.sysret y 0 w) q locks c v) 0 .go =
    some (solo .utrapret q locks c v) := by
  simp [next, go]

theorem utrapret_solo : next (solo .utrapret q unlocked (enabled b) v) 0 .go =
    some (solo .user q unlocked (enabled b) v) := by
  simp [next, go, State.setSie]

theorem run_of_next {s s' : State 1} {x : Choice} {l : List (Fin 1 × Choice)}
    (hn : next s 0 x = some s') : run s ((0, x) :: l) = run s' l := by
  rw [run, Lts.exec, hn]
  rfl

end Solo

/-- A `fork` that finds no memory. -/
def failingFork : List (Fin 1 × Choice) :=
  [(0, .fork)] ++ goes 0 13 ++ [(0, .fail)] ++ goes 0 6

/-- **A failing `fork` costs a pid** and nothing else. -/
theorem solo_cycle (v : Int) (g : Nat) (b : Bool) :
    run (solo .user (idle g) unlocked (enabled b) v) failingFork =
      some (solo .user (idle (g + 1)) unlocked (enabled true) (succPid v)) := by
  simp only [failingFork, goes, List.replicate, List.cons_append, List.nil_append]
  -- slot 0 is taken
  rw [run_of_next fork_solo, run_of_next (paScan_solo 0 0 rfl), run_of_next (acq_solo _),
    run_of_next paCheck_solo_zero, run_of_next (rel_solo _)]
  -- slot 1 is free
  rw [run_of_next (paScan_solo 1 1 rfl), run_of_next (acq_solo _),
    run_of_next (paCheck_solo_one rfl), run_of_next (rel_solo _), run_of_next (acq_solo _),
    run_of_next paPid_solo, run_of_next (rel_solo _), run_of_next (paSetPid_solo _),
    run_of_next mm_solo]
  -- and is given back
  rw [run_of_next paAlloc_solo, failFork, run_of_next (acq_solo _),
    run_of_next (release_solo _ rfl), run_of_next (rel_solo _), run_of_next mm_solo,
    run_of_next (sysret_solo _ _), run_of_next utrapret_solo]
  rfl

/-! ## Through all pids -/

theorem solo_boot : run (boot 1) (goes 0 9) =
    some (solo .user (idle 0) unlocked (enabled false) 2) := by
  have hrun : (run (boot 1) (goes 0 9)).map (fun s =>
      let t := solo .user (idle 0) unlocked (enabled false) 2
      decide (s.procs = t.procs ∧ s.cpus = t.cpus ∧ s.cproc = t.cproc ∧ s.cur = t.cur ∧
        s.tpc = t.tpc ∧ s.spc = t.spc ∧ s.currPid = t.currPid ∧ s.ticks = t.ticks)) =
      some true := by
    decide +kernel
  obtain ⟨s, hs, he⟩ := Option.map_eq_some_iff.1 hrun
  have hi := inv_reachable (reachable_run (.start rfl) hs)
  obtain ⟨procs, locks, cpus, cproc, cur, tpc, spc, currPid, ticks⟩ := s
  obtain ⟨rfl, rfl, rfl, rfl, rfl, rfl, rfl, rfl⟩ := of_decide_eq_true he
  have hl : locks = unlocked := by
    funext l
    cases hl : locks l with
    | none => rfl
    | some h =>
        have := (hi.lock h l).1 hl
        simp [State.pcOf, solo] at this
  subst hl
  exact hs

theorem solo_reachable (k : Nat) : ∃ b, (system 1).Reachable
    (solo .user (idle k) unlocked (enabled b) (Int.bmod (2 + k) (2 ^ 32))) := by
  induction k with
  | zero => exact ⟨false, reachable_run (.start rfl) solo_boot⟩
  | succ k ih =>
      obtain ⟨b, hr⟩ := ih
      refine ⟨true, ?_⟩
      have hv : succPid (Int.bmod (2 + k) (2 ^ 32)) = Int.bmod (2 + (k + 1 : Nat)) (2 ^ 32) := by
        rw [succPid, Int.bmod_add_bmod]
        rw [add_assoc]
        rfl
      have := reachable_run hr (solo_cycle _ _ _)
      rwa [hv] at this

/-- Follow a schedule and keep the labels, newest first. -/
def record (tr : List (Label 1)) (s : State 1) :
    List (Fin 1 × Choice) → Option (List (Label 1) × State 1)
  | [] => some (tr, s)
  | (h, c) :: l => (next s h c).bind fun s' => record (⟨h, c, emit s h c⟩ :: tr) s' l

theorem run_record {l : List (Fin 1 × Choice)} {tr tr₀ tr' : List (Label 1)} {s s' : State 1}
    (hs : (system 1).Run (tr ++ tr₀) s) (hr : record tr s l = some (tr', s')) :
    (system 1).Run (tr' ++ tr₀) s' := by
  induction l generalizing tr s with
  | nil => cases hr; exact hs
  | cons a l ih =>
      obtain ⟨s₁, h₁, h₂⟩ := Option.bind_eq_some_iff.1 hr
      exact ih (hs.next (a := ⟨a.1, a.2, emit s a.1 a.2⟩) ⟨h₁, rfl⟩) h₂

/-- What a call has released does not depend on what was before it. -/
theorem call_append {p : Slot} {l l₀ : List Event} {w : Call} (hw : call p l = some w) :
    ∃ w', call p (l ++ l₀) = some w' ∧ w'.freed.length = w.freed.length := by
  induction l generalizing w with
  | nil => cases hw
  | cons e l ih =>
      by_cases he : e.OfCall p
      · rcases he with ⟨addr, rfl⟩ | ⟨q, v, rfl⟩ | ⟨addr, x, rfl⟩
        · simp only [call, if_true, Option.some.injEq] at hw
          subst hw
          exact ⟨⟨addr, [], []⟩, by simp [call], rfl⟩
        all_goals
          simp only [call, if_true] at hw
          obtain ⟨w₁, h₁, rfl⟩ := Option.map_eq_some_iff.1 hw
          obtain ⟨w₂, h₂, hl⟩ := ih h₁
          exact ⟨_, by simp [call, h₂]; rfl, by simp [hl]⟩
      · rw [call_cons he] at hw
        rw [List.cons_append, call_cons he]
        exact ih hw

/-- **A `wait` that returns -1 and has released a child.**  `init`'s forks fail until
`allocpid` has come round to -1; then one succeeds, and the child exits. -/
theorem zombie_reaped_as_failure : ∃ tr, ∃ s : State 1, (system 1).Run tr s ∧
    ¬Reaps (events tr) s := by
  obtain ⟨b, tr₀, hr₀⟩ := solo_reachable (2 ^ 32 - 3)
  have hrun : ∀ b, (record [] (solo .user (idle (2 ^ 32 - 3)) unlocked (enabled b) (-1))
      ([(0, .fork)] ++ goes 0 24 ++ [(0, .wait 0)] ++ goes 0 51 ++
        [(0, .exit 7)] ++ goes 0 313)).map (fun x =>
          (x.2.pcOf 0, (call 0 (events x.1)).map (·.freed.length))) =
      some (.sysret .wait 0 (-1), some 1) := by
    decide +kernel
  obtain ⟨⟨tr, s⟩, hs, he⟩ := Option.map_eq_some_iff.1 (hrun b)
  simp only [Prod.mk.injEq] at he
  obtain ⟨hp, hf⟩ := he
  obtain ⟨w, hw, hf⟩ := Option.map_eq_some_iff.1 hf
  have hr := run_record (show (system 1).Run ([] ++ tr₀) _ from hr₀) hs
  refine ⟨tr ++ tr₀, s, hr, fun hre => ?_⟩
  obtain ⟨w₁, h₁, hret⟩ := hre.returns 0 .go _ 0 (-1) (by simp [next, go, hp]; rfl)
    (by simp [emit, hp])
  obtain ⟨w₂, h₂, hl⟩ := call_append (p := 0) hw
  have hev : events (tr ++ tr₀) = events tr ++ events tr₀ := List.map_append
  rw [hev, h₂] at h₁
  cases h₁
  rw [hf] at hl
  rcases hret with ⟨-, hnil⟩ | ⟨hne, -⟩
  · rw [hnil] at hl
    cases hl
  · exact hne rfl

end Wl00.Sched
