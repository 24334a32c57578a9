import Wl00.Sched.Preserve

/-!
# Parents

What the source's discipline for `p->parent` amounts to: the field is written
under `wait_lock`, except that `releaseproc` clears it, and what it clears
without `wait_lock` is NULL already.  So whoever has read a parent under
`wait_lock` knows it until the lock is given back (`Family.child`), and a slot
that is UNUSED or NEW has no parent (`Family.fresh`).
-/

namespace Wl00.Sched

variable {n : Nat}

namespace Pc

/-- A slot and the parent that the thread at this point knows it to have. -/
@[simp] def child : Pc → Option (Slot × Slot)
  | .acq _ k | .rel _ k | .mm k | .trapYield _ k | .sret k | .wakeup _ _ k | .sched k
  | .schedRet _ k | .clockTick k | .wakeCheck _ _ k | .yieldSet _ k => child k
  | .waitCheck p _ i | .waitCopyout p _ i _ _ | .release i (.wait p) _
  | .exitHand p _ _ i _ => some (i, p)
  | _ => none

/-- A zombie without a parent that is about to be released. -/
@[simp] def orphan : Pc → Option Slot
  | .acq _ k | .rel _ k | .mm k | .trapYield _ k | .sret k | .wakeup _ _ k | .sched k
  | .schedRet _ k | .clockTick k | .wakeCheck _ _ k | .yieldSet _ k => orphan k
  | .release i .sched _ | .release i (.kexit _) _ => some i
  | _ => none

theorem wait_mem_locks_of_child {t : Option Slot} {k : Pc} {i p : Slot} (hw : k.Wf t)
    (hc : k.child = some (i, p)) : .wait ∈ k.locks := by
  induction k with
  | acq l k ih =>
      obtain ⟨hw, -, -, -, hE, -⟩ := hw
      have hm := ih hw hc
      rw [locks, Finset.mem_erase]
      refine ⟨?_, hm⟩
      rintro rfl
      obtain ⟨_, _, rfl⟩ | ⟨_, _, rfl⟩ | ⟨_, _, _, rfl⟩ := hE rfl <;> simp at hc
  | release q r k _ =>
      cases r with
      | wait p' => obtain ⟨v, rfl⟩ := hw.2; simp
      | _ => simp at hc
  | _ => grind [child, locks, Wf]

theorem frees_of_orphan {k : Pc} {i : Slot} (hk : k.orphan = some i) : k.frees = some i := by
  induction k with
  | release q r k _ => cases r <;> simp_all
  | _ => simp_all

end Pc

theorem Silent.child {s : State n} {h : Fin n} {pc k : Pc} {i p : Slot} (hk : Silent s h pc k)
    (hc : k.child = some (i, p)) : pc.child = some (i, p) ∨ (s.procs i).parent = some p := by
  cases hk
  case timerUser | timerKernel =>
    unfold clockintr at hc
    split at hc <;> simp_all
  all_goals simp_all [failFork, reap]

theorem Silent.orphan {s : State n} {h : Fin n} {pc k : Pc} {i : Slot} (hk : Silent s h pc k)
    (hc : k.orphan = some i) : pc.orphan = some i ∨ (s.procs i).parent = none := by
  cases hk
  case timerUser | timerKernel =>
    unfold clockintr at hc
    split at hc <;> simp_all
  all_goals simp_all [failFork, reap]

/-- What is known about parents. -/
structure Family (s : State n) : Prop where
  fresh : ∀ q, ¬(s.procs q).state.Alive → (s.procs q).parent = none
  child : ∀ h i p, (s.pcOf h).child = some (i, p) → (s.procs i).parent = some p
  orphan : ∀ h i, (s.pcOf h).orphan = some i → (s.procs i).parent = none

namespace Family

variable {s s' : State n} {h : Fin n}

theorem alive (hf : Family s) {q p : Slot} (hp : (s.procs q).parent = some p) :
    (s.procs q).state.Alive := by
  by_contra ha
  rw [hf.fresh q ha] at hp
  cases hp

/-- A slot change leaves the parent alone, unless it is made under `wait_lock`. -/
theorem update_parent (hf : Family s) (hi : Inv s) {i : Slot} {q : Proc} {k : Pc}
    (hu : Update s h (s.pcOf h) i q k) (hw : .wait ∉ (s.pcOf h).locks) :
    q.parent = (s.procs i).parent := by
  have hwf := hi.wf h
  have ho := hf.orphan h i
  have hc := fun b hb => (hi.claim_own (h := h) (i := i) (b := b) hb).1
  generalize s.pcOf h = pc at hu hw hwf ho hc
  cases hu with
  | release _ r k hl =>
      cases r with
      | wait p => obtain ⟨v, rfl⟩ := hwf.2; simp at hw
      | kexit p => obtain ⟨st, g, rfl⟩ := hwf.2; simp at hw
      | sched => exact (ho rfl).symm
      | fail p => exact (hf.fresh i (by simp [hc false rfl, ProcState.Alive])).symm
  | publish | handNone | handRelease | hand | handZombie => simp at hw
  | _ => rfl

/-- **`p->parent` is guarded by `wait_lock`.** -/
theorem parent_step (hf : Family s) (hi : Inv s) (hs : Step s h s')
    (hw : .wait ∉ (s.pcOf h).locks) (q : Slot) :
    (s'.procs q).parent = (s.procs q).parent := by
  obtain ⟨pc, procs, k, hpc, hprocs, -, hm⟩ := hi.move hs
  rw [hprocs]
  cases hm with
  | @update _ k i x hu =>
      subst hpc
      by_cases hq : q = i
      · subst hq; simpa using hf.update_parent hi hu hw
      · simp [hq]
  | dispatch i _ =>
      by_cases hq : q = i
      · subst hq; simp
      · simp [hq]
  | _ => rfl

theorem fresh_step (hf : Family s) (hi : Inv s) (hs : Step s h s') (q : Slot)
    (ha : ¬(s'.procs q).state.Alive) : (s'.procs q).parent = none := by
  obtain ⟨pc, procs, k, hpc, hprocs, -, hm⟩ := hi.move hs
  have hold := hf.fresh q
  have hc := hf.child h
  rw [hprocs] at ha ⊢
  rw [hpc] at hc
  cases hm with
  | @update _ k i x hu =>
      by_cases hq : q = i
      · subst hq
        rw [Function.update_self] at ha ⊢
        cases hu with
        | release => rfl
        | handNone p | handRelease p | hand p | handZombie p =>
            exact absurd (hf.alive (hc q p rfl)) ha
        | claim p _ hst => exact hold (by simp [hst, ProcState.Alive])
        | setPid | awake => exact hold ha
        | _ => simp [ProcState.Alive] at ha
      · rw [Function.update_of_ne hq] at ha ⊢
        exact hold ha
  | dispatch i _ =>
      by_cases hq : q = i
      · subst hq; simp [ProcState.Alive] at ha
      · rw [Function.update_of_ne hq] at ha ⊢
        exact hold ha
  | _ => exact hold ha

/-- The thread that goes on after a slot change knows what it knew, or nothing. -/
theorem update_child (hi : Inv s) {i : Slot} {q : Proc} {k : Pc}
    (hu : Update s h (s.pcOf h) i q k) {j p : Slot} (hc : k.child = some (j, p)) :
    (s.pcOf h).child = some (j, p) ∧ q.parent = (s.procs i).parent := by
  have hwf := hi.wf h
  generalize s.pcOf h = pc at hu hwf
  cases hu with
  | release _ r k hl =>
      cases r with
      | wait p => obtain ⟨v, rfl⟩ := hwf.2; simp at hc
      | kexit p => obtain ⟨st, g, rfl⟩ := hwf.2; simp at hc
      | sched => obtain rfl := hwf.2; simp at hc
      | fail p => obtain rfl := hwf.2; simp at hc
  | awake p lk k =>
      obtain ⟨-, c, hs⟩ := hwf
      obtain ⟨-, -, a, rfl⟩ | ⟨-, -, m, st, rfl⟩ := hs <;> simp at hc
  | _ => simp_all

theorem child_step (hf : Family s) (hi : Inv s) (hs : Step s h s') (h' : Fin n) (i p : Slot)
    (hc : (s'.pcOf h').child = some (i, p)) : (s'.procs i).parent = some p := by
  by_cases hh : h' = h
  · subst hh
    obtain ⟨pc, procs, k, hpc, hprocs, hk, hm⟩ := hi.move hs
    have hold := hf.child h' i p
    rw [hk] at hc
    rw [hprocs]
    cases hm with
    | silent hsil =>
        rcases hsil.child hc with hc | hc
        · exact hold (hpc ▸ hc)
        · exact hc
    | @update _ _ j q hu =>
        subst hpc
        obtain ⟨hc', hq⟩ := update_child hi hu hc
        by_cases hij : i = j
        · subst hij
          rw [Function.update_self, hq]
          exact hold hc'
        · rw [Function.update_of_ne hij]
          exact hold hc'
    | acq | rel => exact hold (by rw [hpc]; exact hc)
    | enter j hw hres =>
        have hl := Pc.wait_mem_locks_of_child hw hc
        rw [hres.locks hw] at hl
        simp at hl
    | alloc | dispatch | leave | back => simp at hc
  · rw [hi.pcOf_step hs hh] at hc
    have hl := Pc.wait_mem_locks_of_child (hi.wf h') hc
    rw [hf.parent_step hi hs fun hl' => hh (hi.lock_inj hl hl')]
    exact hf.child h' i p hc

theorem update_orphan (hi : Inv s) {i : Slot} {q : Proc} {k : Pc}
    (hu : Update s h (s.pcOf h) i q k) {j : Slot} (hc : k.orphan = some j) :
    j = i ∧ q.parent = none := by
  obtain ⟨rfl, hz⟩ := hu.frees (hi.wf h) (Pc.frees_of_orphan hc)
  refine ⟨rfl, ?_⟩
  have hwf := hi.wf h
  generalize s.pcOf h = pc at hu hwf
  cases hu with
  | release => rfl
  | handNone | handRelease => rfl
  | awake p lk k =>
      obtain ⟨-, c, hs⟩ := hwf
      obtain ⟨-, -, a, rfl⟩ | ⟨-, -, m, st, rfl⟩ := hs <;> simp at hc
  | _ => simp_all

theorem orphan_step (hf : Family s) (hi : Inv s) (hs : Step s h s') (h' : Fin n) (i : Slot)
    (hc : (s'.pcOf h').orphan = some i) : (s'.procs i).parent = none := by
  by_cases hh : h' = h
  · subst hh
    obtain ⟨pc, procs, k, hpc, hprocs, hk, hm⟩ := hi.move hs
    have hold := hf.orphan h' i
    rw [hk] at hc
    rw [hprocs]
    cases hm with
    | silent hsil =>
        rcases hsil.orphan hc with hc | hc
        · exact hold (hpc ▸ hc)
        · exact hc
    | update hu =>
        subst hpc
        obtain ⟨rfl, hq⟩ := update_orphan hi hu hc
        rw [Function.update_self, hq]
    | acq | rel => exact hold (by rw [hpc]; exact hc)
    | enter j hw hres =>
        have hfr := Pc.frees_of_orphan hc
        rw [hres.frees hw] at hfr
        cases hfr
    | alloc | dispatch | leave | back => simp at hc
  · rw [hi.pcOf_step hs hh] at hc
    have hl := Pc.mem_locks_of_frees (hi.wf h') (Pc.frees_of_orphan hc)
    have hold := hf.orphan h' i hc
    rcases hi.slot_step hs fun hl' => hh (hi.lock_inj hl hl') with he | ⟨-, v, he⟩ <;> rw [he]
    · exact hold
    · exact hold

end Family

theorem family_step {s s' : State n} {h : Fin n} (hi : Inv s) (hf : Family s) (hs : Step s h s') :
    Family s' :=
  ⟨hf.fresh_step hi hs, hf.child_step hi hs, hf.orphan_step hi hs⟩

theorem family_boot : Family (boot n) := by
  refine ⟨?_, ?_, ?_⟩
  · exact fun _ _ => rfl
  · simp [boot, State.pcOf]
  · simp [boot, State.pcOf]

/-- **What is known about parents holds in every run.** -/
theorem family_reachable {s : State n} (hr : (system n).Reachable s) : Family s := by
  refine hr.invariant ?_ ?_
  · rintro _ rfl
    exact family_boot
  · rintro s a s' hr hf ⟨hn, -⟩
    exact family_step (inv_reachable hr) hf (next_step hn)

end Wl00.Sched
