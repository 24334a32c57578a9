import Wl00.Sched.Family

/-!
# No lost wakeup

A process asleep in `wait` has no zombie child that nobody is about to tell it
of.  Zombie children come into being under `wait_lock` alone, in `kexit`: the
parent is woken before the process becomes a zombie, and a reaper is woken after
zombies have been handed to it.  The invariant ties the sleeper, its zombie
children and the point of the hart that holds `wait_lock` together.

* `Wakeup` is the invariant: what the holder of `wait_lock` knows
  (`Wakeup.aware`), and that a sleeper with a zombie child is yet to be woken
  (`Wakeup.pending`).
* `no_lost_wakeup` is the result for the states in which `wait_lock` is free.
-/

namespace Wl00.Sched

variable {n : Nat}

/-- `p` is asleep on `c`, or its thread has given up its lock to sleep. -/
def Asleep (c : Chan) (s : State n) (p : Slot) : Prop :=
  ((s.procs p).state = .waiting ∧ (s.procs p).chan = some c) ∨
    ∃ h lk k, s.pcOf h = .sleepSet p c lk k

/-- `p` is asleep in `wait`, or its thread has given up `wait_lock` to sleep. -/
abbrev Dozing (s : State n) (p : Slot) : Prop := Asleep (.proc p) s p

/-- `q` is a zombie child of `p`. -/
def ZombieChild (s : State n) (p q : Slot) : Prop :=
  (s.procs q).parent = some p ∧ (s.procs q).state = .zombie

namespace Pc

/-- The thread, in `kexit`, has yet to wake `p`. -/
@[simp] def Wakes (p : Slot) : Pc → Prop
  | .acq _ k | .rel _ k => Wakes p k
  | .exitChildren _ _ r _ g | .exitHand _ _ r _ g => r = some p ∧ g = true
  | .wakeup c i k => c = some (.proc p) ∧ i ≤ p.val ∧ .wait ∈ k.locks
  | .wakeCheck c i k => c = some (.proc p) ∧ i ≤ p ∧ .wait ∈ k.locks
  | _ => False

theorem wait_mem_locks_of_wakes {t : Option Slot} {k : Pc} {p : Slot} (hw : k.Wf t)
    (hk : k.Wakes p) : .wait ∈ k.locks := by
  induction k with
  | acq l k ih =>
      obtain ⟨hw, -, -, -, hE, -⟩ := hw
      rw [locks, Finset.mem_erase]
      refine ⟨?_, ih hw hk⟩
      rintro rfl
      obtain ⟨_, _, rfl⟩ | ⟨_, _, rfl⟩ | ⟨_, _, _, rfl⟩ := hE rfl <;> simp at hk
  | _ => simp_all

/-- The process in `kexit` that becomes a zombie once `wakeup` has returned. -/
@[simp] def dying : Pc → Option Slot
  | .acq (.proc _) (.exitZombie p _) => some p
  | _ => none

theorem eq_of_dying {k : Pc} {p : Slot} (hk : k.dying = some p) :
    ∃ j st, k = .acq (.proc j) (.exitZombie p st) := by
  unfold dying at hk
  split at hk
  · next j p' st => exact ⟨j, st, by rw [Option.some.inj hk]⟩
  · cases hk

end Pc

/-- What a hart that holds `wait_lock` knows: `wait` has found no zombie child
among the slots it has looked at, and `kexit` has woken the parent if it was
asleep. -/
@[simp] def Aware (s : State n) : Pc → Prop
  | .acq l k => l ≠ .wait → Aware s k
  | .rel l k => if l = .wait then ∀ p c lk k', k = .sleepSet p c lk k' → ∀ q, ¬ZombieChild s p q
      else Aware s k
  | .waitScan p _ i _ => ∀ q : Slot, q.val < i → ¬ZombieChild s p q
  | .waitCheck p _ i => ∀ q, q < i → ¬ZombieChild s p q
  | .wakeup c i k => ∀ p, k.dying = some p → c = (s.procs p).parent.map .proc ∧
      ∀ r : Slot, (s.procs p).parent = some r → r.val < i → ¬Dozing s r
  | .wakeCheck c i k => ∀ p, k.dying = some p → c = (s.procs p).parent.map .proc ∧
      ∀ r, (s.procs p).parent = some r → r < i → ¬Dozing s r
  | .exitZombie p _ => ∀ r, (s.procs p).parent = some r → ¬Dozing s r
  | _ => True

theorem aware_of_not_wait {s : State n} {t : Option Slot} {k : Pc} (hw : k.Wf t)
    (hl : .wait ∉ k.locks) : Aware s k := by
  induction k with
  | acq l k ih => exact fun hne => ih hw.1 fun hm => hl (by simp [hm, Ne.symm hne])
  | rel l k ih =>
      have hne : l ≠ .wait := by
        rintro rfl
        simp at hl
      rw [Aware, if_neg hne]
      exact ih hw.1 fun hm => hl (by simp [hm])
  | wakeup c i k _ | wakeCheck c i k _ =>
      intro p hp
      obtain ⟨j, st, rfl⟩ := Pc.eq_of_dying hp
      simp at hl
  | _ => simp_all

/-- What a hart knows is kept by whatever makes no zombie child, puts nobody to
sleep in `wait` and leaves the parents alone. -/
theorem Aware.mono {s s' : State n} {k : Pc} (hk : Aware s k)
    (hp : ∀ q, (s'.procs q).parent = (s.procs q).parent)
    (hz : ∀ p q, ZombieChild s' p q → ZombieChild s p q)
    (hd : ∀ p, Dozing s' p → Dozing s p) : Aware s' k := by
  induction k with
  | acq l k ih => exact fun hne => ih (hk hne)
  | rel l k ih =>
      rw [Aware] at hk ⊢
      split
      · next hl =>
        rw [if_pos hl] at hk
        exact fun p c lk k' he q hq => hk p c lk k' he q (hz p q hq)
      · next hl =>
        rw [if_neg hl] at hk
        exact ih hk
  | _ => simp_all <;> grind

/-! ## How zombie children and sleepers come about -/

section Step

variable {s s' : State n} {h : Fin n}

theorem zombieChild_step (hi : Inv s) (hs : Step s h s') {p q : Slot}
    (hz : ZombieChild s' p q) : ZombieChild s p q ∨
      (∃ st, s.pcOf h = .exitZombie q st ∧ (s.procs q).parent = some p) ∨
      ∃ x st g, s.pcOf h = .exitHand x st (some p) q g ∧ (s.procs q).state = .zombie := by
  obtain ⟨pc, procs, k, hpc, hprocs, -, hm⟩ := hi.move hs
  unfold ZombieChild at hz ⊢
  rw [hprocs] at hz
  rw [hpc]
  cases hm with
  | @update _ _ i x hu =>
      by_cases hq : q = i
      · subst hq
        rw [Function.update_self] at hz
        cases hu <;> simp_all [releaseproc]
      · rw [Function.update_of_ne hq] at hz
        exact .inl hz
  | dispatch i _ =>
      by_cases hq : q = i
      · subst hq; simp at hz
      · rw [Function.update_of_ne hq] at hz
        exact .inl hz
  | _ => exact .inl hz

theorem Silent.steady {pc k : Pc} {t : Option Slot} (hk : Silent s h pc k) (hw : pc.Wf t) :
    k.Steady := by
  cases hk
  case timerUser | timerKernel =>
    unfold clockintr
    split <;> simp
  case mm | sret => exact Pc.steady_of_locks_eq_empty hw.2.2
  case trapYieldNo => exact Pc.steady_of_locks_eq_empty hw.2.2.1
  case wakeupEnd =>
    rintro p c lk k' rfl
    exact hw.2.2.1 p (by simp)
  case schedRet => exact hw.2.2.1
  all_goals simp [failFork, reap]

theorem Update.steady {pc k : Pc} {t : Option Slot} {i : Slot} {q : Proc}
    (hu : Update s h pc i q k) (hw : pc.Wf t) : k.Steady := by
  cases hu with
  | release _ r k hl =>
      cases r with
      | wait p => obtain ⟨v, rfl⟩ := hw.2; simp
      | kexit p => obtain ⟨st, g, rfl⟩ := hw.2; simp
      | sched => obtain rfl := hw.2; simp
      | fail p => obtain rfl := hw.2; simp
  | _ => simp

/-- Where a thread comes from that is about to sleep. -/
theorem rel_of_sleepSet (hi : Inv s) (hs : Step s h s') {p : Slot} {c : Chan} {lk : Lock} {k : Pc}
    (hk : s'.pcOf h = .sleepSet p c lk k) : s.pcOf h = .rel lk (.sleepSet p c lk k) := by
  obtain ⟨pc, procs, k', hpc, -, hk', hm⟩ := hi.move hs
  have hw := hi.wf h
  rw [hk] at hk'
  rw [hpc] at hw ⊢
  cases hm with
  | silent hsil => exact absurd hk'.symm (hsil.steady hw p c lk k)
  | update hu => exact absurd hk'.symm (hu.steady hw p c lk k)
  | acq l => exact absurd hk'.symm (hw.2.2.2.2.2 p c lk k)
  | rel l =>
      subst hk'
      rcases hw.2.2.2 with hst | ⟨p', c', k', he⟩
      · exact absurd rfl (hst p c lk k)
      · cases he; rfl
  | enter i hwf hres =>
      subst hk'
      rcases hres with he | ⟨ia, k', he⟩ <;> cases he
  | alloc | dispatch | leave | back => cases hk'

/-- A process falls asleep when it has given up its lock. -/
theorem asleep_step (hi : Inv s) (hs : Step s h s') {p : Slot} {c : Chan} (hd : Asleep c s' p) :
    Asleep c s p ∨ ∃ lk k, s.pcOf h = .rel lk (.sleepSet p c lk k) ∧
      s'.pcOf h = .sleepSet p c lk k := by
  rcases hd with hd | ⟨h', lk, k, hk⟩
  · left
    obtain ⟨pc, procs, k, hpc, hprocs, -, hm⟩ := hi.move hs
    rw [hprocs] at hd
    cases hm with
    | @update _ _ i x hu =>
        by_cases hp : p = i
        · subst hp
          rw [Function.update_self] at hd
          cases hu with
          | sleep _ c' lk k =>
              obtain rfl : c' = c := by simpa using hd.2
              exact .inr ⟨h, lk, _, hpc⟩
          | _ => simp_all [releaseproc, Asleep]
        · rw [Function.update_of_ne hp] at hd
          exact .inl hd
    | dispatch i _ =>
        by_cases hp : p = i
        · subst hp; simp at hd
        · rw [Function.update_of_ne hp] at hd
          exact .inl hd
    | _ => exact .inl hd
  · by_cases hh : h' = h
    · subst hh
      exact .inr ⟨lk, k, rel_of_sleepSet hi hs hk, hk⟩
    · rw [hi.pcOf_step hs hh] at hk
      exact .inl (.inr ⟨h', lk, k, hk⟩)

theorem dozing_step (hi : Inv s) (hs : Step s h s') {p : Slot} (hd : Dozing s' p) :
    Dozing s p ∨ ∃ c lk k, s.pcOf h = .rel .wait (.sleepSet p c lk k) ∧
      s'.pcOf h = .sleepSet p c lk k := by
  rcases asleep_step hi hs hd with hd | ⟨lk, k, hrel, hk⟩
  · exact .inl hd
  · have hw := hi.wf h
    rw [hrel] at hw
    obtain ⟨-, ⟨-, rfl, -⟩ | ⟨hc, -⟩⟩ := hw.1
    · exact .inr ⟨_, _, _, hrel, hk⟩
    · cases hc

/-- Whoever holds a sleeper's lock finds it asleep. -/
theorem Asleep.waiting (hi : Inv s) {p : Slot} {c : Chan} (hd : Asleep c s p)
    (hl : .proc p ∈ (s.pcOf h).locks) (hst : (s.pcOf h).Steady) :
    (s.procs p).state = .waiting ∧ (s.procs p).chan = some c := by
  rcases hd with hd | ⟨h', lk, k, hk⟩
  · exact hd
  · have hl' : .proc p ∈ (s.pcOf h').locks := by simp [hk]
    obtain rfl := hi.lock_inj hl hl'
    exact absurd hk (hst _ _ _ _)

/-- `wakeup` leaves no sleeper behind: one that still sleeps is in a later slot. -/
theorem Asleep.ahead (hi : Inv s) (hs : Step s h s') {p i : Slot} {c : Chan} {k : Pc}
    (hd : Asleep c s' p) (hp : s.pcOf h = .wakeCheck (some c) i k) (hle : i ≤ p) :
    i.val + 1 ≤ p.val := by
  refine Nat.succ_le_of_lt (lt_of_le_of_ne hle fun he => ?_)
  obtain rfl : i = p := Fin.ext he
  have hi' := step_inv hi hs
  have hsie : (s.cpus h).sie ≠ true := by
    intro hs
    have hl := hi.locks_eq_empty hs
    simp [hp] at hl
  obtain ⟨pc, procs, k', hpc, hprocs, hk', hm⟩ := hi.move hs
  obtain rfl : pc = _ := hpc.symm.trans hp
  -- the slot's lock is held before the step and after it
  have hasleep : ∀ k₁, k' = .rel (.proc i) k₁ →
      (procs i).state = .waiting ∧ (procs i).chan = some c := by
    rintro k₁ rfl
    rw [← hprocs]
    exact hd.waiting hi' (h := h) (by simp [hk']) (by simp [hk'])
  cases hm with
  | silent hsil =>
      cases hsil with
      | timerKernel _ hc _ => exact hsie hc
      | wakeCheckNo _ _ _ hno =>
          obtain ⟨hst, hch⟩ := hasleep _ rfl
          exact hno ⟨hch, hst⟩
  | update hu =>
      cases hu with
      | wake =>
          have := (hasleep _ rfl).1
          simp at this
  | leave p hl _ => rcases hl with he | ⟨q, he, -⟩ <;> cases he

end Step

/-! ## What the holder of `wait_lock` knows -/

/-- What every interleaving keeps about sleepers in `wait`. -/
structure Wakeup (s : State n) : Prop where
  aware : ∀ h, Aware s (s.pcOf h)
  pending : ∀ p q, Dozing s p → ZombieChild s p q → ∃ h, (s.pcOf h).Wakes p

section Aware

variable {s s' : State n} {h : Fin n}

theorem Silent.aware {k : Pc} (hi : Inv s) (hk : Silent s h (s.pcOf h) k)
    (ha : Aware s (s.pcOf h)) : Aware s k := by
  have hw := hi.wf h
  have hself : ∀ p q, s.cur h = some p → s.cproc h = some q → p = q := by
    intro p q hp hq
    exact Option.some.inj ((hi.cur h p hp).2.symm.trans hq)
  have hasleep : ∀ c i k', s.pcOf h = .wakeCheck c i k' → Dozing s i →
      (s.procs i).state = .waiting ∧ (s.procs i).chan = some (.proc i) := by
    intro c i k' hp hd
    exact Asleep.waiting hi hd (h := h) (by simp [hp]) (by simp [hp])
  generalize s.pcOf h = pc at hk ha hw hasleep
  cases hk
  case timerUser | timerKernel =>
    unfold clockintr
    split <;> simp
  case mm | sret => exact aware_of_not_wait hw.1 (by simp [hw.2.2])
  case trapYieldNo => exact aware_of_not_wait hw.1 (by simp [hw.2.2.1])
  case schedRet =>
    obtain ⟨p, -, hl⟩ := hw.2.2.2.2
    exact aware_of_not_wait hw.1 (by simp [hl])
  case wakeupEnd c i hi =>
    by_cases hwait : .wait ∈ k.locks
    · obtain ⟨p, st, rfl | rfl⟩ := hw.2.2.2 hwait
      · trivial
      · exact fun _ r hr => (ha p rfl).2 r hr (r.isLt.trans_le hi)
    · exact aware_of_not_wait hw.1 hwait
  case wakeCheckNo c i k hno =>
    rw [Aware, if_neg (by simp)]
    intro p hp
    obtain ⟨hc, hr⟩ := ha p hp
    refine ⟨hc, fun r hpr hlt hd => ?_⟩
    rcases Nat.lt_succ_iff_lt_or_eq.1 hlt with hlt | heq
    · exact hr r hpr hlt hd
    · -- the slot just looked at
      obtain rfl := Fin.ext heq
      obtain ⟨hst, hch⟩ := hasleep c r k rfl hd
      exact hno ⟨by rw [hch, hc, hpr]; rfl, hst⟩
  case waitScanSleep p q addr i hi hq =>
    obtain rfl := hself p q hw hq
    intro _
    rw [Aware, if_pos rfl]
    intro p' c lk k' he q
    cases he
    exact ha q (q.isLt.trans_le hi)
  case waitScanNo p addr i hi hc hne =>
    intro q hlt hz
    rcases Nat.lt_succ_iff_lt_or_eq.1 hlt with hlt | heq
    · exact ha q hlt hz
    · obtain rfl : q = ⟨i, hi⟩ := Fin.ext heq
      exact hne hz.1
  case waitScanChild p addr i hi hc hp => exact fun _ q hlt => ha q hlt
  case waitCheckNo p addr i hne =>
    rw [Aware, if_neg (by simp)]
    intro q hlt hz
    rcases Nat.lt_succ_iff_lt_or_eq.1 hlt with hlt | heq
    · exact ha q hlt hz
    · obtain rfl := Fin.ext heq
      exact hne hz.2
  case wakeupNext c i hi k => exact fun _ => ha
  case exitParentNone p st hp => simp [hp]
  all_goals simp [failFork, reap]

/-- A slot change that tells the hart nothing new. -/
theorem Update.aware {pc k : Pc} {i : Slot} {q : Proc} {t : Option Slot}
    (hu : Update s h pc i q k) (hw : pc.Wf t) (hne : ∀ c k', pc ≠ .wakeCheck c i k') :
    Aware s' k := by
  cases hu with
  | wake c _ k => exact absurd rfl (hne c k)
  | release _ r k hl =>
      cases r with
      | wait p => obtain ⟨v, rfl⟩ := hw.2; simp
      | kexit p => obtain ⟨st, g, rfl⟩ := hw.2; simp
      | sched => obtain rfl := hw.2; simp
      | fail p => obtain rfl := hw.2; simp
  | awake p lk k =>
      obtain ⟨-, c, hs⟩ := hw
      obtain ⟨-, rfl, a, rfl⟩ | ⟨-, rfl, m, st, rfl⟩ := hs <;> simp
  | _ => simp

theorem aware_own (hi : Inv s) (hs : Step s h s') (ha : Aware s (s.pcOf h)) :
    Aware s' (s'.pcOf h) := by
  have hi' := step_inv hi hs
  obtain ⟨pc, procs, k, hpc, hprocs, hk, hm⟩ := hi.move hs
  have hw := hi.wf h
  -- the step neither makes a zombie child nor puts anybody to sleep
  have hkeep : s'.procs = s.procs →
      (∀ p c lk k', pc = .rel .wait (.sleepSet p c lk k') → k ≠ .sleepSet p c lk k') →
      Aware s k → Aware s' k := by
    intro hp hne hak
    refine hak.mono (by simp [hp]) (fun p q hz => ?_) (fun p hd => ?_)
    · simpa [ZombieChild, hp] using hz
    · rcases dozing_step hi hs hd with hd | ⟨c, lk, k', he, he'⟩
      · exact hd
      · exact absurd (hk.symm.trans he') (hne p c lk k' (hpc.symm.trans he))
  rw [hk]
  cases hm with
  | silent hsil =>
      subst hpc
      exact hkeep hprocs (fun p c lk k' _ => hsil.steady hw p c lk k') (hsil.aware hi ha)
  | @update _ _ i x hu =>
      subst hpc
      by_cases hwc : ∃ c k', s.pcOf h = .wakeCheck c i k'
      · obtain ⟨c, k', hpc⟩ := hwc
        rw [hpc] at hu ha
        cases hu with
        | wake _ _ _ hch hst =>
          rw [Aware, if_neg (by simp)]
          intro p hp
          obtain ⟨hc, hr⟩ := ha p hp
          have hpar : ∀ j, (s'.procs j).parent = (s.procs j).parent := by
            intro j
            rw [hprocs]
            by_cases hj : j = i
            · subst hj; simp
            · simp [hj]
          refine ⟨by rw [hpar, hc], fun r hpr hlt hd => ?_⟩
          rw [hpar] at hpr
          rcases Nat.lt_succ_iff_lt_or_eq.1 hlt with hlt | heq
          · rcases dozing_step hi hs hd with hd | ⟨_, _, _, he, -⟩
            · exact hr r hpr hlt hd
            · rw [hpc] at he
              cases he
          · obtain rfl := Fin.ext heq
            have := (Asleep.waiting hi' hd (h := h) (by simp [hk]) (by simp [hk])).1
            simp [hprocs] at this
      · exact hu.aware hw fun c k' he => hwc ⟨c, k', he⟩
  | acq l k hl =>
      rw [hpc] at hw ha
      by_cases hl : l = .wait
      · obtain ⟨_, _, rfl⟩ | ⟨_, _, rfl⟩ | ⟨_, _, _, rfl⟩ := hw.2.2.2.2.1 hl <;> simp
      · exact hkeep hprocs (by simp) (ha hl)
  | rel l k =>
      rw [hpc] at hw ha
      by_cases hl : l = .wait
      · subst hl
        exact aware_of_not_wait hw.1 hw.2.1
      · rw [Aware, if_neg hl] at ha
        refine hkeep hprocs (fun p c lk k' he => ?_) ha
        cases he
        exact absurd rfl hl
  | enter i hwf hres => exact aware_of_not_wait hwf (by simp [hres.locks hwf])
  | alloc | dispatch | leave | back => trivial

theorem aware_step (hi : Inv s) (hf : Family s) (hu : Wakeup s) (hs : Step s h s') (h' : Fin n) :
    Aware s' (s'.pcOf h') := by
  by_cases hh : h' = h
  · subst hh
    exact aware_own hi hs (hu.aware h')
  · rw [hi.pcOf_step hs hh]
    by_cases hl : .wait ∈ (s.pcOf h').locks
    · -- this step is made without `wait_lock`
      have hl' : .wait ∉ (s.pcOf h).locks := fun hl' => hh (hi.lock_inj hl hl')
      refine (hu.aware h').mono (hf.parent_step hi hs hl') (fun p q hz => ?_) (fun p hd => ?_)
      · rcases zombieChild_step hi hs hz with hz | ⟨st, he, -⟩ | ⟨x, st, g, he, -⟩
        · exact hz
        · simp [he] at hl'
        · simp [he] at hl'
      · rcases dozing_step hi hs hd with hd | ⟨c, lk, k, he, -⟩
        · exact hd
        · simp [he] at hl'
    · exact aware_of_not_wait (hi.wf h') hl

/-! ## The sleeper is yet to be woken -/

/-- The hart that has yet to wake a sleeper still has, unless it just did. -/
theorem wakes_own (hi : Inv s) (hs : Step s h s') {p : Slot} (hd : Dozing s' p)
    (hk : (s.pcOf h).Wakes p) : (s'.pcOf h).Wakes p := by
  obtain ⟨pc, procs, k, hpc, -, hk', hm⟩ := hi.move hs
  have hwait := Pc.wait_mem_locks_of_wakes (hi.wf h) hk
  have hsie : (s.cpus h).sie = true → False := by
    intro hs
    rw [hi.locks_eq_empty hs] at hwait
    simp at hwait
  rw [hk']
  rw [hpc] at hk
  cases hm with
  | silent hsil =>
      cases hsil
      case timerUser hc _ | timerKernel hc _ => exact (hsie hc).elim
      case wakeupNext c i hi k => exact ⟨hk.1, hk.2.1, hk.2.2⟩
      case wakeupEnd c i hle => exact absurd (hk.2.1.trans_lt p.isLt) (not_lt.2 hle)
      case wakeCheckNo c i k _ =>
        obtain ⟨rfl, hle, hl⟩ := hk
        exact ⟨rfl, Asleep.ahead hi hs hd hpc hle, hl⟩
      all_goals simp_all
  | @update _ _ i x hu =>
      cases hu with
      | wake c _ k _ _ =>
          obtain ⟨rfl, hle, hl⟩ := hk
          exact ⟨rfl, Asleep.ahead hi hs hd hpc hle, hl⟩
      | _ => simp_all
  | acq l k _ | rel l k => exact hk
  | leave p hl _ =>
      rcases hl with rfl | ⟨q, rfl, -⟩ <;> simp at hk
  | enter | alloc | dispatch | back => simp at hk

theorem pending_step (hi : Inv s) (hu : Wakeup s) (hs : Step s h s') (p q : Slot)
    (hd : Dozing s' p) (hz : ZombieChild s' p q) : ∃ h', (s'.pcOf h').Wakes p := by
  have haware := hu.aware h
  rcases zombieChild_step hi hs hz with hz' | ⟨st, he, hp⟩ | ⟨x, st, g, he, hst⟩
  · rcases dozing_step hi hs hd with hd' | ⟨c, lk, k, he, -⟩
    · obtain ⟨h', hk⟩ := hu.pending p q hd' hz'
      by_cases hh : h' = h
      · subst hh
        exact ⟨h', wakes_own hi hs hd hk⟩
      · exact ⟨h', by rwa [hi.pcOf_step hs hh]⟩
    · -- `wait` has looked at every slot before it sleeps
      rw [he, Aware, if_pos rfl] at haware
      exact absurd hz' (haware p c lk k rfl q)
  · -- `kexit` has woken the parent before its process becomes a zombie
    rcases dozing_step hi hs hd with hd' | ⟨c, lk, k, he', -⟩
    · rw [he] at haware
      exact absurd hd' (haware p hp)
    · rw [he] at he'
      cases he'
  · -- a zombie has just been handed over
    obtain ⟨pc, procs, k, hpc, -, hk, hm⟩ := hi.move hs
    refine ⟨h, ?_⟩
    rw [hpc] at he
    rw [hk]
    cases hm with
    | update hu =>
        subst he
        cases hu with
        | hand _ _ _ _ _ hne => exact absurd hst hne
        | handZombie => simp
    | silent hsil =>
        subst he
        cases hsil with
        | timerKernel _ hsie _ =>
            have hl := hi.locks_eq_empty hsie
            simp [hpc] at hl
    | leave p hl _ =>
        subst he
        rcases hl with hl | ⟨q, hl, -⟩ <;> cases hl
    | _ => cases he

end Aware

theorem wakeup_step {s s' : State n} {h : Fin n} (hi : Inv s) (hf : Family s) (hu : Wakeup s)
    (hs : Step s h s') : Wakeup s' :=
  ⟨aware_step hi hf hu hs, pending_step hi hu hs⟩

theorem wakeup_boot : Wakeup (boot n) := by
  refine ⟨fun h => ?_, fun p q _ hz => ?_⟩
  · simp [boot, State.pcOf]
  · cases hz.1

theorem wakeup_reachable {s : State n} (hr : (system n).Reachable s) : Wakeup s := by
  refine hr.invariant ?_ ?_
  · rintro _ rfl
    exact wakeup_boot
  · rintro s a s' hr hu ⟨hn, -⟩
    exact wakeup_step (inv_reachable hr) (family_reachable hr) hu (next_step hn)

/-- **No lost wakeup between exit and wait.**  Whenever `wait_lock` is free, a
process asleep in `wait` has no zombie child. -/
theorem no_lost_wakeup (s : State n) (hr : (system n).Reachable s) (hw : s.locks .wait = none)
    (p : Slot) (hs : (s.procs p).state = .waiting) (hc : (s.procs p).chan = some (.proc p)) :
    ¬∃ q, (s.procs q).parent = some p ∧ (s.procs q).state = .zombie := by
  rintro ⟨q, hq⟩
  have hi := inv_reachable hr
  obtain ⟨h, hk⟩ := (wakeup_reachable hr).pending p q (.inl ⟨hs, hc⟩) hq
  rw [(hi.lock h .wait).2 (Pc.wait_mem_locks_of_wakes (hi.wf h) hk)] at hw
  cases hw

/-- `init` forks and goes to sleep in `wait`; its child is not a zombie. -/
theorem no_lost_wakeup_asleep : ∃ s : State 1, (system 1).Reachable s ∧ s.locks .wait = none ∧
    (s.procs 0).state = .waiting ∧ (s.procs 1).parent = some 0 ∧ (s.procs 1).state ≠ .zombie := by
  have hrun : (run (boot 1)
      (goes 0 9 ++ [(0, .fork)] ++ goes 0 24 ++ [(0, .wait 0)] ++
        goes 0 40)).map (fun s => (s.locks .wait, (s.procs 0).state,
          (s.procs 0).chan, (s.procs 1).parent)) =
      some (none, .waiting, some (.proc 0), some 0) := by
    decide +kernel
  obtain ⟨s, hs, he⟩ := Option.map_eq_some_iff.1 hrun
  simp only [Prod.mk.injEq] at he
  obtain ⟨hl, hst, hc, hp⟩ := he
  have hr := reachable_run (.start rfl) hs
  exact ⟨s, hr, hl, hst, hp, fun hz => no_lost_wakeup s hr hl 0 hst hc ⟨1, hp, hz⟩⟩

end Wl00.Sched
