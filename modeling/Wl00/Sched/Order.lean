import Mathlib.Logic.Relation
import Wl00.Sched.Preserve

/-!
# The order of the locks

`README.md` fixes the order in which locks are taken: `wait_lock` and `tickslock`
before any `p->lock`, and that before `mem_lock`, `pid_lock` and `print_lock`.  A
program point says which locks its hart will have taken at each `lock` that is still
ahead of it, so that keeping the order is a property of points (`Pc.Ranked`), which
every step keeps.

* `locks_ordered` — whoever calls `lock` holds only locks of a lower rank, `swtch`
  leaves with one lock, and no harts wait for each other in a circle.
-/

namespace Wl00.Sched

variable {n : Nat}

/-- The place of a lock in the order. -/
def Lock.rank : Lock → Nat
  | .wait | .ticks => 0
  | .proc _ => 1
  | .mem | .pid | .print => 2

namespace Pc

/-- At every call of `lock` ahead, the locks that will be held then rank below the one
that is taken.  `wakeup` takes the locks of slots, so it is called with locks of the
first rank only. -/
@[simp] def Ranked : Pc → Prop
  | .acq l k => Ranked k ∧ ∀ l' ∈ k.locks.erase l, l'.rank < l.rank
  | .wakeup _ _ k | .wakeCheck _ _ k => Ranked k ∧ ∀ l ∈ k.locks, l.rank = 0
  | .rel _ k | .mm k | .trapYield _ k | .sret k | .sched k | .schedRet _ k | .clockTick k
  | .yieldSet _ k | .sleepSet _ _ _ k | .sleepWake _ _ k | .release _ _ k => Ranked k
  | _ => True

theorem Sleeps.ranked {p : Slot} {c : Chan} {lk : Lock} {k : Pc} (hs : Sleeps p c lk k) :
    k.Ranked := by
  obtain ⟨-, -, a, rfl⟩ | ⟨-, -, m, st, rfl⟩ := hs <;> trivial

/-- `releaseproc` is called with the lock of a slot, and perhaps `wait_lock`. -/
theorem Releases.ranked {q : Slot} {k : Pc} {r : Releaser} (hk : Releases q k r) :
    k.Ranked ∧ ∀ l ∈ k.locks, l.rank < 2 := by
  cases r with
  | wait p => obtain ⟨v, rfl⟩ := hk; simp [Lock.rank]
  | kexit p => obtain ⟨st, g, rfl⟩ := hk; simp [Lock.rank]
  | sched => obtain rfl := hk; simp [Lock.rank]
  | fail p => obtain rfl := hk; simp [Lock.rank]

end Pc

/-! ## Every step keeps the order -/

theorem ranked_clockintr (h : Fin n) {k : Pc} (hr : k.Ranked) (hl : k.locks = ∅) :
    (clockintr h k).Ranked := by
  unfold clockintr
  split
  · simp [hr, hl]
  · exact hr

theorem Silent.ranked {s : State n} {h : Fin n} {pc k : Pc} {t : Option Slot}
    (hk : Silent s h pc k) (hw : pc.Wf t) (hr : pc.Ranked)
    (hi : (s.cpus h).sie = true → pc.locks = ∅) : k.Ranked := by
  cases hk
  case timerUser p _ hp => exact ranked_clockintr h (by simp) (by simp)
  case timerKernel hs _ => exact ranked_clockintr h hr (hi hs)
  case wakeupNext c i hi k =>
    obtain ⟨hk, hl⟩ := hr
    refine ⟨⟨hk, hl⟩, fun l' hm => ?_⟩
    simp only [Pc.locks, Finset.mem_erase, Finset.mem_insert] at hm
    rw [hl l' (hm.2.resolve_left hm.1)]
    exact Nat.one_pos
  case releaseMem q r k =>
    refine ⟨hr, fun l' hm => ?_⟩
    simp only [Pc.locks, Finset.mem_erase, Finset.mem_insert] at hm
    exact hw.2.ranked.2 l' (hm.2.resolve_left hm.1)
  all_goals
    clear hi
    simp_all [failFork, reap, Lock.rank, Finset.erase_insert_of_ne]

theorem Update.ranked {s : State n} {h : Fin n} {pc k : Pc} {i : Slot} {q : Proc} {t : Option Slot}
    (hu : Update s h pc i q k) (hw : pc.Wf t) (hr : pc.Ranked) : k.Ranked := by
  cases hu
  case awake lk k =>
    obtain ⟨-, c, hs⟩ := hw
    simp [hs.ranked, hs.locks]
  all_goals simp_all [Lock.rank]

/-- Every thread keeps the order. -/
structure Ordered (s : State n) : Prop where
  thread : ∀ p, (s.tpc p).Ranked
  scheduler : ∀ h, (s.spc h).Ranked

namespace Ordered

variable {s s' : State n} {h : Fin n}

theorem pcOf (ho : Ordered s) (h : Fin n) : (s.pcOf h).Ranked := by
  cases hu : s.cur h with
  | none => rw [s.pcOf_none hu]; exact ho.scheduler h
  | some p => rw [s.pcOf_some hu]; exact ho.thread p

theorem setPc {k : Pc} (ht : ∀ p, (s.tpc p).Ranked) (hs : ∀ h, (s.spc h).Ranked)
    (hk : k.Ranked) : Ordered (s.setPc h k) := by
  refine ⟨fun p => ?_, fun h' => ?_⟩
  · rw [State.tpc_setPc]
    split
    · exact hk
    · exact ht p
  · rw [State.spc_setPc]
    split
    · exact hk
    · exact hs h'

/-- A context that keeps the order is stored. -/
theorem setTpc (ho : Ordered s) {k : Pc} (hk : k.Ranked) (i : Slot) :
    ∀ p, (Function.update s.tpc i k p).Ranked := by
  intro p
  by_cases hp : p = i
  · rw [hp, Function.update_self]
    exact hk
  · rw [Function.update_of_ne hp]
    exact ho.thread p

theorem step (ho : Ordered s) (hi : Inv s) (hs : Step s h s') : Ordered s' := by
  have hr := ho.pcOf h
  have hw := hi.wf h
  cases hs with
  | silent hk _ _ _ =>
      exact setPc ho.thread ho.scheduler (hk.ranked hw hr hi.locks_eq_empty)
  | update hu => exact setPc ho.thread ho.scheduler (hu.ranked hw hr)
  | acq hp _ =>
      rw [hp] at hr
      exact setPc ho.thread ho.scheduler hr.1
  | rel hp _ _ =>
      rw [hp] at hr
      exact setPc ho.thread ho.scheduler hr
  | alloc _ => exact setPc (ho.setTpc (k := .forkret _) trivial _) ho.scheduler trivial
  | dispatch _ _ | back _ => exact setPc ho.thread ho.scheduler trivial
  | enter _ =>
      refine ⟨ho.thread, fun h' => ?_⟩
      by_cases hh : h' = h
      · simp [hh]
      · simpa [hh] using ho.scheduler h'
  | leave hl _ _ =>
      refine ⟨ho.setTpc ?_ _, ho.scheduler⟩
      rcases hl with he | ⟨p, -, rfl⟩
      · rw [he] at hr
        exact hr
      · trivial
  | panic hp => exact absurd hp hi.not_panics

end Ordered

theorem ordered_reachable {s : State n} (hr : (system n).Reachable s) : Ordered s := by
  refine hr.invariant ?_ ?_
  · rintro _ rfl
    exact ⟨fun _ => trivial, fun _ => trivial⟩
  · rintro s a s' hr ho ⟨hn, -⟩
    exact ho.step (inv_reachable hr) (next_step hn)

/-- A hart changes stacks with the lock of the process it leaves or enters. -/
theorem Inv.locks_of_switch {s s' : State n} {h : Fin n} (hi : Inv s) (hs : Step s h s')
    (hne : s'.cur h ≠ s.cur h) :
    ∃ p, (s.cur h = some p ∨ s.cur h = none ∧ s'.cur h = some p) ∧ (s.pcOf h).locks = {.proc p} := by
  cases hs with
  | @enter i hp =>
      have hu := Inv.cur_eq_none hi.toRunInv hp fun _ => id
      exact ⟨i, .inr ⟨hu, Function.update_self ..⟩, by rw [hp]; rfl⟩
  | leave hl _ _ =>
      obtain ⟨p, hu, hlocks⟩ := hl.locks (hi.wf h)
      exact ⟨p, .inl hu, hlocks⟩
  | _ => simp [State.setCpu, State.setProc, State.setLock, State.setCproc] at hne

/-! ## No deadlock -/

/-- Hart `h` spins on a lock that hart `h'` holds. -/
def WaitsFor (s : State n) (h h' : Fin n) : Prop :=
  ∃ l k, s.pcOf h = .acq l k ∧ s.locks l = some h'

/-- Whoever calls `lock` holds locks of lower ranks only. -/
theorem Ordered.rank_lt {s : State n} (ho : Ordered s) (hi : Inv s) {h : Fin n} {l l' : Lock}
    {k : Pc} (hp : s.pcOf h = .acq l k) (hl : s.locks l' = some h) : l'.rank < l.rank := by
  have hr := ho.pcOf h
  rw [hi.lock, hp] at hl
  rw [hp] at hr
  exact hr.2 l' hl

/-- Along a chain of waiting harts the ranks do not fall. -/
theorem Ordered.rank_le {s : State n} (ho : Ordered s) (hi : Inv s) {h h' : Fin n} {l : Lock} {k : Pc}
    (hp : s.pcOf h = .acq l k) (hc : Relation.TransGen (WaitsFor s) h h') :
    ∃ l', s.locks l' = some h' ∧ l.rank ≤ l'.rank := by
  induction hc with
  | single hw =>
      obtain ⟨l', k', hp', hl⟩ := hw
      rw [hp] at hp'
      cases hp'
      exact ⟨l, hl, le_rfl⟩
  | tail _ hw ih =>
      obtain ⟨l₁, hl₁, hle⟩ := ih
      obtain ⟨l₂, k₂, hp₂, hl₂⟩ := hw
      exact ⟨l₂, hl₂, hle.trans (ho.rank_lt hi hp₂ hl₁).le⟩

/-- **There is no deadlock between locks.**  In every reachable state of any number of
harts: whoever calls `lock` holds only locks that rank below the one it wants, and in
particular no lock of another slot when it wants one; a hart that changes stacks holds
nothing but the lock of the process it leaves or enters; and no harts spin on each
other's locks in a circle. -/
theorem locks_ordered {s : State n} (hr : (system n).Reachable s) :
    (∀ h l k, s.pcOf h = .acq l k → ∀ l', s.locks l' = some h → l'.rank < l.rank) ∧
    (∀ h i k, s.pcOf h = .acq (.proc i) k → ∀ j, s.locks (.proc j) ≠ some h) ∧
    (∀ a s', (system n).step s a s' → s'.cur a.hart ≠ s.cur a.hart →
      ∃ p, (s.cur a.hart = some p ∨ s.cur a.hart = none ∧ s'.cur a.hart = some p) ∧
        ∀ l, s.locks l = some a.hart ↔ l = .proc p) ∧
    ∀ h, ¬Relation.TransGen (WaitsFor s) h h := by
  have hi := inv_reachable hr
  have ho := ordered_reachable hr
  refine ⟨fun h l k hp l' hl => ho.rank_lt hi hp hl, fun h i k hp j hl => ?_, ?_, fun h hc => ?_⟩
  · exact lt_irrefl 1 (ho.rank_lt hi hp hl)
  · rintro a s' ⟨hn, -⟩ hne
    obtain ⟨p, hp, hlocks⟩ := hi.locks_of_switch (next_step hn) hne
    refine ⟨p, hp, fun l => ?_⟩
    rw [hi.lock, hlocks, Finset.mem_singleton]
  · obtain ⟨h₁, ⟨l, k, hp, -⟩, -⟩ := Relation.TransGen.head'_iff.1 hc
    obtain ⟨l', hl', hle⟩ := ho.rank_le hi hp hc
    exact absurd (ho.rank_lt hi hp hl') (not_lt.2 hle)

/-- `clockintr` holds `tickslock` when `wakeup` wants the lock of the first slot. -/
theorem locks_ordered_wakeup : ∃ (s : State 1) (k : Pc), (system 1).Reachable s ∧
    s.pcOf 0 = .acq (.proc 0) k ∧ s.locks .ticks = some 0 ∧ Lock.ticks.rank < (Lock.proc 0).rank := by
  have hrun : (run (boot 1) (goes 0 9 ++ [(0, .timer)] ++ goes 0 3)).map
      (fun s => (s.pcOf 0, s.locks .ticks)) = some (.acq (.proc 0) (.wakeCheck (some .ticks) 0
        (.rel .ticks (.acq (.proc 0) (.yieldSet 0 .utrapret)))), some 0) := by
    decide +kernel
  obtain ⟨s, hs, he⟩ := Option.map_eq_some_iff.1 hrun
  obtain ⟨hp, hl⟩ := Prod.mk.inj he
  have hr := reachable_run (.start rfl) hs
  exact ⟨s, _, hr, hp, hl, (locks_ordered hr).1 0 _ _ hp _ hl⟩

end Wl00.Sched
