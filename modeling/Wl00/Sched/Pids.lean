import Wl00.Sched.Family

/-!
# The pids handed out

`allocpid` gives a pid to a thread in `procalloc`, which stores it in the slot
it has claimed.  Between the two the thread may be preempted, so that what is
known of the pids handed out is carried by the program points (`NewPids`).
`curr_pid` is a 32-bit counter: `Unwrapped` are the values it goes through
before it has come round to the pids 0 and 1.
-/

namespace Wl00.Sched

variable {n : Nat}

namespace Pc

/-- The pid that `procalloc` is about to store. -/
@[simp] def newPid : Pc → Option Int
  | .acq _ k | .rel _ k | .mm k | .trapYield _ k | .sret k | .wakeup _ _ k | .sched k
  | .schedRet _ k | .clockTick k | .wakeCheck _ _ k | .yieldSet _ k | .sleepSet _ _ _ k
  | .sleepWake _ _ k | .release _ _ k => newPid k
  | .paSetPid _ _ v => some v
  | _ => none

end Pc

theorem Silent.newPid {s : State n} {h : Fin n} {pc k : Pc} {v : Int} (hk : Silent s h pc k)
    (hv : k.newPid = some v) : pc.newPid = some v ∨ ∃ p i, pc = .paPid p i ∧ v = s.currPid := by
  cases hk
  case timerUser | timerKernel =>
    unfold clockintr at hv
    split at hv <;> simp_all
  all_goals simp_all [failFork, reap]

theorem Update.newPid {s : State n} {h : Fin n} {pc k : Pc} {i : Slot} {q : Proc} {v : Int}
    (hu : Update s h pc i q k) (hv : k.newPid = some v) : pc.newPid = some v := by
  cases hu <;> simp_all

theorem ThreadMove.newPid {s : State n} {h : Fin n} {pc k : Pc} {procs : Slot → Proc} {v : Int}
    (hm : ThreadMove s h pc procs k) (hv : k.newPid = some v) :
    pc.newPid = some v ∨ ∃ p i, pc = .paPid p i ∧ v = s.currPid := by
  cases hm with
  | silent hk => exact hk.newPid hv
  | update i q hu => exact .inl (hu.newPid hv)
  | acq l k | rel l k => exact .inl hv
  | alloc p i => cases hv
  | leave ia hl =>
      rcases hl with rfl | ⟨p, rfl, rfl⟩
      · exact .inl hv
      · cases hv

/-- Every pid on the way into a slot has the property `P`. -/
def NewPids (P : Int → Prop) (s : State n) : Prop := ∀ p v, (s.tpc p).newPid = some v → P v

theorem NewPids.step {P : Int → Prop} {s s' : State n} {h : Fin n} (hp : NewPids P s) (hi : Inv s)
    (hs : Step s h s') (hpid : ∀ p i, s.pcOf h = .paPid p i → P s.currPid) : NewPids P s' := by
  intro p v hv
  rcases hi.tpc_step hs p with he | ⟨hu, hm⟩ | ⟨-, he⟩
  · exact hp p v (by rwa [he] at hv)
  · rcases hm.newPid hv with hv | ⟨p', i, he, rfl⟩
    · exact hp p v hv
    · exact hpid p' i (by rw [s.pcOf_some hu, he])
  · rw [he] at hv
    cases hv

/-! ## The counter -/

/-- `curr_pid` moves only in `allocpid`. -/
theorem currPid_step {s s' : State n} {h : Fin n} (hs : Step s h s') : s'.currPid = s.currPid ∨
    ∃ p i, s.pcOf h = .paPid p i ∧ s'.currPid = succPid s.currPid := by
  cases hs with
  | silent _ _ _ hp => simpa [State.setCpu] using hp
  | _ => left; simp [State.setProc, State.setCpu, State.setLock, State.setCproc]

/-- The values of `curr_pid` on its first way round: up from 2, over the end of
the signed range, and up to -1. -/
def Unwrapped (v : Int) : Prop := (2 ≤ v ∧ v < 2 ^ 31) ∨ (-2 ^ 31 ≤ v ∧ v < 0)

theorem Unwrapped.succPid {v : Int} (hv : Unwrapped v) (hne : v ≠ -1) :
    Unwrapped (Sched.succPid v) := by
  unfold Unwrapped at hv ⊢
  unfold Sched.succPid
  rcases hv with ⟨h1, h2⟩ | ⟨h1, h2⟩
  · by_cases hmax : v = 2 ^ 31 - 1
    · subst hmax
      right
      decide
    · left
      rw [Int.bmod_eq_of_le (by omega) (by omega)]
      omega
  · right
    rw [Int.bmod_eq_of_le (by omega) (by omega)]
    omega

end Wl00.Sched
