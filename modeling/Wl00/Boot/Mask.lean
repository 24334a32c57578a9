import Wl00.Boot.Main
import Wl00.Sched.Handler

/-!
# Schedulers that do not see who still boots

Harts that still boot are in no scheduler, but they take `print_lock` and use their `struct cpu`.
`State.mask` is the state without that.  What a scheduling hart does, it can do there as well.
-/

namespace Wl00.Sched

variable {n : Nat}

/-- The state without the locks and the bookkeeping of the harts in `B`. -/
def State.mask (s : State n) (B : Fin n → Bool) : State n := { s with
  locks := fun l => (s.locks l).filter fun h => !B h
  cpus := fun h => if B h = true then ⟨0, false, false⟩ else s.cpus h }

namespace State

variable (s : State n) (B : Fin n → Bool) {h : Fin n}

@[simp] theorem procs_mask : (s.mask B).procs = s.procs := rfl

@[simp] theorem cproc_mask : (s.mask B).cproc = s.cproc := rfl

@[simp] theorem cur_mask : (s.mask B).cur = s.cur := rfl

@[simp] theorem ticks_mask : (s.mask B).ticks = s.ticks := rfl

@[simp] theorem currPid_mask : (s.mask B).currPid = s.currPid := rfl

@[simp] theorem pcOf_mask (h : Fin n) : (s.mask B).pcOf h = s.pcOf h := rfl

theorem cpus_mask (hB : B h = false) : (s.mask B).cpus h = s.cpus h := by
  simp [mask, hB]

theorem locks_mask_none {l : Lock} (hl : s.locks l = none) : (s.mask B).locks l = none := by
  simp [mask, hl]

theorem locks_mask_iff {l : Lock} (hB : B h = false) :
    (s.mask B).locks l = some h ↔ s.locks l = some h := by
  simp only [mask, Option.filter_eq_some_iff, hB, Bool.not_false, and_true]

@[simp] theorem setPc_mask (h : Fin n) (k : Pc) : (s.mask B).setPc h k = (s.setPc h k).mask B := by
  unfold setPc mask
  cases s.cur h <;> rfl

@[simp] theorem setProc_mask (i : Slot) (q : Proc) :
    (s.mask B).setProc i q = (s.setProc i q).mask B := rfl

@[simp] theorem setCproc_mask (h : Fin n) (o : Option Slot) :
    (s.mask B).setCproc h o = (s.setCproc h o).mask B := rfl

theorem setCpu_mask (hB : B h = false) (c : Spinlock.Cpu) :
    (s.mask B).setCpu h c = (s.setCpu h c).mask B := by
  unfold setCpu mask
  congr 1
  funext h'
  by_cases hh : h' = h
  · subst hh
    simp [hB]
  · simp [hh]

theorem setSie_mask (hB : B h = false) (b : Bool) :
    (s.mask B).setSie h b = (s.setSie h b).mask B := by
  rw [setSie, setSie, cpus_mask s B hB, setCpu_mask s B hB]

theorem setLock_mask (l : Lock) {o : Option (Fin n)} (ho : o.filter (fun h => !B h) = o) :
    (s.mask B).setLock l o = (s.setLock l o).mask B := by
  unfold setLock mask
  congr 1
  funext l'
  by_cases hl : l' = l
  · subst hl
    simp [ho]
  · simp [hl]

end State

section Mask

variable {s t : State n} {B : Fin n → Bool} {h : Fin n} {c : Choice}

theorem sleep_mask (ch : Chan) (lk : Lock) (k : Pc) :
    sleep (s.mask B) h ch lk k = (sleep s h ch lk k).mask B := by
  unfold sleep
  rw [State.cproc_mask]
  split <;> simp

theorem yield_mask (k : Pc) : yield (s.mask B) h k = (yield s h k).mask B := by
  unfold yield
  rw [State.cproc_mask]
  split <;> simp

theorem sched_mask (hB : B h = false) (k : Pc) : sched (s.mask B) h k = (sched s h k).mask B := by
  unfold sched
  rw [State.cproc_mask]
  split
  · simp
  · next p hc =>
    have hl : (s.mask B).locks (.proc p) ≠ some h ↔ s.locks (.proc p) ≠ some h :=
      not_congr (s.locks_mask_iff B hB)
    simp only [hl, State.cpus_mask s B hB, State.procs_mask]
    split
    · simp
    · rfl

theorem lock_mask (hB : B h = false) {l : Lock} {k : Pc} (hg : lock s h l k = some t)
    (hl : s.locks l = none) : lock (s.mask B) h l k = some (t.mask B) := by
  unfold lock at hg ⊢
  rw [hl] at hg
  cases hg
  rw [s.locks_mask_none B hl]
  simp only [s.setLock_mask B l (o := some h) (by simp [hB]), s.cpus_mask B hB,
    State.setCpu_mask _ B hB, State.setPc_mask]

theorem unlock_mask (hB : B h = false) (l : Lock) (k : Pc) :
    unlock (s.mask B) h l k = (unlock s h l k).mask B := by
  unfold unlock
  simp only [s.locks_mask_iff B hB, s.cpus_mask B hB, s.setLock_mask B l (o := none) rfl,
    State.setCpu_mask _ B hB, State.setPc_mask]
  split
  · split <;> rfl
  · rfl

theorem trap_mask (hB : B h = false) : trap (s.mask B) h c = (trap s h c).map (·.mask B) := by
  unfold trap
  simp only [State.cproc_mask, State.setSie_mask s B hB, State.setPc_mask]
  repeat' split
  all_goals rfl

theorem timer_mask (hB : B h = false) : timer (s.mask B) h = (timer s h).map (·.mask B) := by
  unfold timer
  simp only [State.cproc_mask, State.cpus_mask s B hB, State.pcOf_mask, State.setSie_mask s B hB,
    State.setPc_mask]
  repeat' split
  all_goals rfl

theorem go_mask (hB : B h = false) (hacq : ∀ l k, s.pcOf h ≠ .acq l k) :
    go (s.mask B) h c = (go s h c).map (·.mask B) := by
  cases hpc : s.pcOf h <;> simp only [go, State.pcOf_mask, hpc, State.procs_mask,
    s.locks_mask_iff B hB, State.cproc_mask, State.ticks_mask, State.currPid_mask, s.cpus_mask B hB,
    State.setSie_mask s B hB, State.setCpu_mask s B hB, State.setPc_mask, State.setProc_mask,
    State.setCproc_mask, sleep_mask, yield_mask, sched_mask hB, unlock_mask hB, trap_mask hB,
    Option.map_some]
  case acq l k => exact absurd hpc (hacq l k)
  case clockTick k =>
    exact congrArg some (State.setPc_mask { s with ticks := (s.ticks + 1) % 2 ^ 32 } B h _)
  case paPid p i =>
    exact congrArg some (State.setPc_mask { s with currPid := succPid s.currPid } B h _)
  case paAlloc p i =>
    split
    · rfl
    · exact congrArg some
        (State.setPc_mask { s with tpc := Function.update s.tpc i (.forkret i) } B h _)
  all_goals (repeat' split) <;> rfl

/-- **A hart that is not masked makes its steps in the masked state, too.** -/
theorem next_mask (hB : B h = false) (hi : Inv (s.mask B)) (hn : next s h c = some t) :
    next (s.mask B) h c = some (t.mask B) := by
  by_cases hc : c = .timer
  · subst hc
    have ht : timer s h = some t := hn
    rw [next, timer_mask hB, ht, Option.map_some]
  · rw [next_of_ne_timer hc] at hn ⊢
    by_cases hacq : ∃ l k, s.pcOf h = .acq l k
    · obtain ⟨l, k, hp⟩ := hacq
      simp only [go, State.pcOf_mask, hp] at hn ⊢
      refine lock_mask hB hn ?_
      -- a lock that is not free is its own, which it does not take twice
      by_contra hne
      obtain ⟨h', hl⟩ := Option.ne_none_iff_exists'.1 hne
      by_cases hh : h' = h
      · have hpan := hi.not_panics (h := h)
        rw [State.pcOf_mask, hp] at hpan
        exact hpan (.relock l k ((s.locks_mask_iff B hB).2 (hh ▸ hl)))
      · simp [lock, hl, hh] at hn
    · have hacq : ∀ l k, s.pcOf h ≠ .acq l k := fun l k hp => hacq ⟨l, k, hp⟩
      rw [go_mask hB hacq, hn, Option.map_some]

end Mask

/-- Only the hart that makes a step takes locks or gives them back. -/
theorem Step.locks_ne {s s' : State n} {h h' : Fin n} (hs : Step s h s') (hh : h' ≠ h)
    (l : Lock) : s'.locks l = some h' ↔ s.locks l = some h' := by
  have hset : ∀ {l' : Lock} {o : Option (Fin n)}, s.locks l' ≠ some h' → o ≠ some h' →
      (Function.update s.locks l' o l = some h' ↔ s.locks l = some h') := by
    intro l' o h₁ h₂
    by_cases hl : l = l'
    · subst hl
      simp [h₁, h₂]
    · simp [hl]
  cases hs with
  | acq _ hl => simpa [State.setCpu, State.setLock] using hset (by simp [hl]) (by simp [hh.symm])
  | rel _ hl _ => simpa [State.setCpu, State.setLock] using hset (by simp [hl, hh.symm]) (by simp)
  | _ => simp [State.setCpu, State.setProc, State.setCproc]

end Wl00.Sched
