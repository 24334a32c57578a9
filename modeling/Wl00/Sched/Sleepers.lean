import Wl00.Sched.Interrupts
import Wl00.Sched.Wakeup

/-!
# `sleep(n)`

`sys_sleep` reads `ticks` once and sleeps on it until `n` ticks have gone by, counted modulo
`2 ^ 32`; `clockintr` of hart 0 counts and wakes under the same `tickslock`.  The history
keeps, for every process, what its last call asked for, what it read as `start`, and how many
ticks there have been since.

* `NapOk` ties the point of a process in `sys_sleep` to its history.
* `Checked` is what a process knows that is on its way to sleep with `tickslock` held: its
  deadline is still ahead.
* `Sleepers.pending` is the third part of the invariant: whoever has slept past the deadline
  is yet to be woken by the hart that holds `tickslock`.
* `sleep_on_time` is the result, from any value of `ticks` at boot.
-/

namespace Wl00.Sched

variable {n : Nat}

/-- The last call of `sleep` of a process: its argument, the value of `ticks` it started
from, and the ticks since then. -/
structure Nap where
  asked : Int
  start : Nat
  elapsed : Nat

/-- The history of `sleep`. -/
def noteNap (s : State n) (a : Label n) (g : Slot → Nap) (p : Slot) : Nap :=
  if a.choice = .timer then g p else
  match s.pcOf a.hart with
  | .user =>
      match a.choice with
      | .sleep m => if s.cproc a.hart = some p then { g p with asked := m } else g p
      | _ => g p
  | .sleepStart q _ => if q = p then { g p with start := s.ticks, elapsed := 0 } else g p
  | .clockTick _ => { g p with elapsed := (g p).elapsed + 1 }
  | _ => g p

/-- `n` harts running the kernel from boot, with `ticks` at any value. -/
def ticking (n : Nat) : Lts (State n) (Label n) where
  init s := ∃ t, t < 2 ^ 32 ∧ s = { boot n with ticks := t }
  step := (system n).step

/-- `ticks - start` in 32 bits has come to what was asked for. -/
def Nap.Late (x : Nap) (t : Nat) : Prop := x.asked ≤ ((t + 2 ^ 32 - x.start) % 2 ^ 32 : Nat)

/-- What the point of a process says about its call of `sleep`, under any frames. -/
@[simp] def NapOk (x : Nap) (t : Nat) : Pc → Prop
  | .acq l k => NapOk x t k ∧ (l = .ticks → (∃ p m, k = .sleepStart p m) ∨
      (∃ p m st, k = .sleepLoop p m st) ∨ ∃ k', k = .clockTick k')
  | .rel _ k | .mm k | .trapYield _ k | .sret k | .wakeup _ _ k | .sched k | .schedRet _ k
  | .clockTick k | .wakeCheck _ _ k | .yieldSet _ k | .sleepSet _ _ _ k | .sleepWake _ _ k
  | .release _ _ k => NapOk x t k
  | .sleepStart _ m => x.asked = m
  | .sleepLoop _ m st => x.asked = m ∧ x.start = st ∧ st < 2 ^ 32 ∧ (st + x.elapsed) % 2 ^ 32 = t
  | .sysret c _ v => c = .sleep → v = 0 → x.asked ≤ x.elapsed
  | _ => True

/-- On the way from the test in `sys_sleep` to the release of `tickslock` in `sleep`, the
deadline is ahead. -/
@[simp] def Checked (x : Nap) (t : Nat) : Pc → Prop
  | .acq l k => l ≠ .ticks → Checked x t k
  | .rel l k => if l = .ticks then k.Steady ∨ ¬x.Late t else Checked x t k
  | .wakeup _ _ k | .wakeCheck _ _ k => Checked x t k
  | _ => True

/-- In the `wakeup` of `clockintr`, with `p` yet to be looked at. -/
@[simp] def Pc.Ticking (p : Slot) : Pc → Prop
  | .wakeup c i k => c = some .ticks ∧ i ≤ p.val ∧ .ticks ∈ k.locks
  | .acq (.proc _) (.wakeCheck c i k) | .wakeCheck c i k =>
      c = some .ticks ∧ i ≤ p ∧ .ticks ∈ k.locks
  | .rel (.proc _) (.wakeup c i k) => c = some .ticks ∧ i ≤ p.val ∧ .ticks ∈ k.locks
  | _ => False

theorem Pc.ticks_mem_locks_of_ticking {p : Slot} {k : Pc} (hk : k.Ticking p) :
    .ticks ∈ k.locks := by
  unfold Ticking at hk
  split at hk <;> simp_all

theorem checked_of_not_ticks {x : Nap} {t : Nat} {k : Pc} (hl : .ticks ∉ k.locks) :
    Checked x t k := by
  induction k with
  | acq l k ih => exact fun hne => ih fun hm => hl (by simp [hm, Ne.symm hne])
  | rel l k ih =>
      have hne : l ≠ .ticks := by
        rintro rfl
        simp at hl
      rw [Checked, if_neg hne]
      exact ih fun hm => hl (by simp [hm])
  | _ => simp_all

/-! ## The clock -/

section Ticks

variable {s s' : State n} {h : Fin n} {c : Choice} {k : Pc}

@[simp] theorem ticks_sched : (sched s h k).ticks = s.ticks := by
  unfold sched
  split
  · simp
  · split_ifs <;> simp

@[simp] theorem ticks_yield : (yield s h k).ticks = s.ticks := by
  unfold yield
  split <;> simp

@[simp] theorem ticks_sleep (ch : Chan) (lk : Lock) : (sleep s h ch lk k).ticks = s.ticks := by
  unfold sleep
  split <;> simp

/-- Only `clockintr` counts. -/
theorem go_ticks (hg : go s h c = some s') (hp : ∀ k, s.pcOf h ≠ .clockTick k) :
    s'.ticks = s.ticks := by
  cases hpc : s.pcOf h <;> simp only [go, hpc] at hg
  case clockTick k => exact absurd hpc (hp k)
  case acq l k =>
    unfold lock at hg
    (repeat' split at hg) <;> cases hg <;> simp [State.setCpu, State.setLock]
  case rel l k =>
    cases hg
    unfold unlock
    (repeat' split) <;> simp [State.setCpu, State.setLock]
  case user =>
    unfold trap at hg
    (repeat' split at hg) <;> cases hg <;> simp [State.setSie, State.setCpu]
  all_goals
    (repeat' split at hg) <;> cases hg <;>
      simp [State.setSie, State.setCpu, State.setProc, State.setCproc]

theorem timer_ticks (ht : timer s h = some s') : s'.ticks = s.ticks := by
  unfold timer at ht
  (repeat' split at ht) <;> cases ht <;> simp [State.setSie, State.setCpu]

theorem go_clockTick (hg : go s h c = some s') (hp : s.pcOf h = .clockTick k) :
    s'.ticks = (s.ticks + 1) % 2 ^ 32 ∧ s'.pcOf h = .wakeup (some .ticks) 0 (.rel .ticks k) := by
  simp only [go, hp] at hg
  obtain rfl := Option.some.inj hg
  simp

end Ticks

/-- A tick later the point says the same. -/
theorem NapOk.tick {x : Nap} {t : Nat} {k : Pc} (hk : NapOk x t k) :
    NapOk { x with elapsed := x.elapsed + 1 } ((t + 1) % 2 ^ 32) k := by
  induction k with
  | sleepLoop p m st =>
      obtain ⟨h1, h2, h3, h4⟩ := hk
      exact ⟨h1, h2, h3, by dsimp only; omega⟩
  | sysret c p v =>
      intro hc hv
      have := hk hc hv
      dsimp only
      omega
  | acq l k ih => exact ⟨ih hk.1, hk.2⟩
  | _ => simp_all

theorem napOk_clockintr {h : Fin n} {x : Nap} {t : Nat} {k : Pc} (hk : NapOk x t k) :
    NapOk x t (clockintr h k) := by
  unfold clockintr
  split
  · simpa using hk
  · exact hk

/-! ## One step of a process -/

section Thread

variable {s s' : State n} {h : Fin n} {pc k : Pc} {x : Nap} {t : Nat} {o : Option Slot}

theorem Silent.napOk (hk : Silent s h pc k) (hx : NapOk x t pc) (hu : pc ≠ .user)
    (hs : ∀ p m, pc ≠ .sleepStart p m) (hl : ∀ p m st, pc ≠ .sleepLoop p m st) : NapOk x t k := by
  cases hk
  case timerUser => exact absurd rfl hu
  case timerKernel => exact napOk_clockintr hx
  all_goals simp_all [failFork, reap]

theorem Update.napOk {i : Slot} {q : Proc} (hk : Update s h pc i q k) (hx : NapOk x t pc)
    (hw : pc.Wf o) : NapOk x t k := by
  cases hk with
  | awake p lk k =>
      obtain ⟨-, c, hs⟩ := hw
      obtain ⟨-, rfl, a, rfl⟩ | ⟨-, rfl, m, st, rfl⟩ := hs <;> simp_all
  | _ => simp_all

/-- A thread's move keeps what its point says, where it does not work on the history. -/
theorem ThreadMove.napOk {procs : Slot → Proc} (hm : ThreadMove s h pc procs k) (hx : NapOk x t pc)
    (hw : pc.Wf o) (hu : pc ≠ .user) (hs : ∀ p m, pc ≠ .sleepStart p m)
    (hl : ∀ p m st, pc ≠ .sleepLoop p m st) : NapOk x t k := by
  cases hm with
  | silent hk => exact hk.napOk hx hu hs hl
  | update i q hk => exact hk.napOk hx hw
  | acq l k => exact hx.1
  | rel l k => exact hx
  | alloc p i => trivial
  | leave ia hl =>
      rcases hl with rfl | ⟨p, -, rfl⟩
      · exact hx
      · trivial

variable {a : Label n} {g : Slot → Nap}

/-- The history is written by a process's own calls and by the clock. -/
theorem noteNap_of (hu : s.pcOf a.hart ≠ .user) (hs : ∀ p m, s.pcOf a.hart ≠ .sleepStart p m)
    (hk : ∀ k, s.pcOf a.hart ≠ .clockTick k) : noteNap s a g = g := by
  funext p
  unfold noteNap
  split
  · rfl
  · split
    · next he => exact absurd he hu
    · next he => exact absurd he (hs _ _)
    · next he => exact absurd he (hk _)
    · rfl

theorem noteNap_ne {p : Slot} (hi : Inv s) (hu : s.cur a.hart ≠ some p)
    (hk : ∀ k, s.pcOf a.hart ≠ .clockTick k) : noteNap s a g p = g p := by
  have hw := hi.wf a.hart
  unfold noteNap
  split
  · rfl
  · split
    · next he =>
      rw [he] at hw
      obtain ⟨q, hq⟩ := Option.ne_none_iff_exists'.1 hw
      have hc := (hi.cur a.hart q hq).2
      split
      · rw [if_neg]
        rw [hc, ← hq]
        exact hu
      · rfl
    · next q m he =>
      rw [he] at hw
      rw [if_neg]
      rintro rfl
      exact hu hw
    · next he => exact absurd he (hk _)
    · rfl

theorem cur_trap {c : Choice} (hg : trap s h c = some s') : s'.cur = s.cur := by
  unfold trap at hg
  (repeat' split at hg) <;> cases hg <;> simp [State.setSie, State.setCpu]

/-- User code calls `sleep`, or something else. -/
theorem napOk_trap {p : Slot} (hp : s.pcOf a.hart = .user) (hc : s.cproc a.hart = some p)
    (hg : trap s a.hart a.choice = some s') :
    NapOk (noteNap s a g p) t (s'.pcOf a.hart) := by
  unfold trap at hg
  rw [hc] at hg
  unfold noteNap
  rw [hp, hc]
  cases hch : a.choice <;> rw [hch] at hg <;> simp only at hg
  case sleep m =>
    split_ifs at hg with hm
    · cases hg; simp
    · cases hg
      simp only [State.pcOf_setPc_self, NapOk, reduceCtorEq, if_false, if_true]
      exact ⟨(Int.toNat_of_nonneg (not_lt.1 hm)).symm, fun _ => .inl ⟨_, _, rfl⟩⟩
  all_goals first | cases hg <;> done | (cases hg; simp)

/-- A timer interrupt puts frames on top. -/
theorem napOk_timer {p : Slot} (hu : s.cur h = some p) (hx : NapOk x t (s.tpc p))
    (ht : timer s h = some s') : NapOk x t (s'.tpc p) := by
  have htpc : ∀ b k, ((s.setSie h b).setPc h k).tpc p = k := by
    intro b k
    rw [State.tpc_setPc]
    exact if_pos hu
  unfold timer at ht
  split_ifs at ht with hsie hp
  · split at ht <;> cases ht
    · rw [State.tpc_setPc, if_pos hu]
      trivial
    · rw [htpc]
      exact napOk_clockintr (by simp)
  · cases ht
    rw [htpc, s.pcOf_some hu]
    exact napOk_clockintr hx

/-- The thread of the hart, in the kernel. -/
theorem napOk_go {p : Slot} (hi : Inv s) (hc : a.choice ≠ .timer) (hu : s.cur a.hart = some p)
    (ht : s.ticks < 2 ^ 32) (hx : NapOk (g p) s.ticks (s.tpc p))
    (hg : go s a.hart a.choice = some s') : NapOk (noteNap s a g p) s'.ticks (s'.tpc p) := by
  have hw := hi.wf a.hart
  have hm := hi.tpc_step_self (go_step hg) hu
  rw [s.pcOf_some hu, hu] at hw
  have hpc := s.pcOf_some hu
  -- a hart that stays on its stack
  have hown : ∀ k, s' = s.setPc a.hart k → s'.tpc p = k := by
    rintro k rfl
    rw [State.tpc_setPc, if_pos hu]
  by_cases huser : s.pcOf a.hart = .user
  · simp only [go, huser] at hg
    have hk := napOk_trap (g := g) (t := s'.ticks) huser (hi.cur a.hart p hu).2 hg
    have hcur : s'.cur a.hart = some p := by rw [cur_trap hg, hu]
    rwa [s'.pcOf_some hcur] at hk
  by_cases hstart : ∃ q m, s.pcOf a.hart = .sleepStart q m
  · obtain ⟨q, m, he⟩ := hstart
    rw [hpc.symm.trans he] at hw hx
    obtain rfl : p = q := Option.some.inj hw
    simp only [go, he, Option.some.injEq] at hg
    have hnote : noteNap s a g p = { g p with start := s.ticks, elapsed := 0 } := by
      simp [noteNap, hc, he]
    have hmod : (s.ticks + 0) % 2 ^ 32 = s.ticks := Nat.mod_eq_of_lt ht
    rw [hown _ hg.symm, ← hg, hnote, State.ticks_setPc]
    exact ⟨hx, rfl, ht, hmod⟩
  by_cases hloop : ∃ q m st, s.pcOf a.hart = .sleepLoop q m st
  · obtain ⟨q, m, st, he⟩ := hloop
    rw [hpc.symm.trans he] at hw hx
    obtain rfl : p = q := Option.some.inj hw
    have hnote : noteNap s a g p = g p := by simp [noteNap, hc, he]
    rw [hnote]
    simp only [go, he] at hg
    split at hg <;> simp only [Option.some.injEq] at hg
    · unfold sleep at hg
      rw [(hi.cur a.hart p hu).2] at hg
      rw [hown _ hg.symm, ← hg]
      simpa using hx
    · next hge =>
      rw [hown _ hg.symm]
      intro _ _
      obtain ⟨h1, h2, h3, h4⟩ := hx
      have : (s.ticks + 2 ^ 32 - st) % 2 ^ 32 = (g p).elapsed % 2 ^ 32 := by omega
      have := Nat.mod_le (g p).elapsed (2 ^ 32)
      omega
  by_cases htick : ∃ k, s.pcOf a.hart = .clockTick k
  · obtain ⟨k, he⟩ := htick
    rw [(go_clockTick hg he).1]
    have hnote : noteNap s a g p = { g p with elapsed := (g p).elapsed + 1 } := by
      simp [noteNap, hc, he]
    rw [hnote]
    refine NapOk.tick ?_
    exact hm.napOk hx hw (by simp_all) (by simp_all) (by simp_all)
  · simp only [not_exists] at hstart hloop htick
    rw [noteNap_of huser hstart htick, go_ticks hg htick]
    rw [hpc] at huser hstart hloop
    exact hm.napOk hx hw huser hstart hloop

end Thread

/-! ## The invariant -/

/-- What every interleaving keeps about processes in `sys_sleep`. -/
structure Sleepers (s : State n) (g : Slot → Nap) : Prop where
  ticks : s.ticks < 2 ^ 32
  nap : ∀ p, NapOk (g p) s.ticks (s.tpc p)
  checked : ∀ h p, s.cur h = some p → Checked (g p) s.ticks (s.tpc p)
  pending : ∀ p, Asleep .ticks s p → (g p).Late s.ticks → ∃ h, (s.pcOf h).Ticking p

namespace Sleepers

variable {s s' : State n} {a : Label n} {g : Slot → Nap}

theorem ticks_step (hp : Sleepers s g) (hn : next s a.hart a.choice = some s') :
    s'.ticks < 2 ^ 32 := by
  by_cases hc : a.choice = .timer
  · rw [hc] at hn
    rw [timer_ticks hn]
    exact hp.ticks
  · rw [next_of_ne_timer hc] at hn
    by_cases hk : ∃ k, s.pcOf a.hart = .clockTick k
    · obtain ⟨k, hk⟩ := hk
      rw [(go_clockTick hn hk).1]
      exact Nat.mod_lt _ (by decide)
    · rw [go_ticks hn (not_exists.1 hk)]
      exact hp.ticks

/-- What the point of a process on another stack says. -/
theorem nap_other (hp : Sleepers s g) (hi : Inv s) (hn : next s a.hart a.choice = some s')
    {p : Slot} (hu : s.cur a.hart ≠ some p) : NapOk (noteNap s a g p) s'.ticks (s'.tpc p) := by
  rcases hi.tpc_step_other (next_step hn) hu with ht | ⟨-, ht⟩
  · rw [ht]
    by_cases hc : a.choice = .timer
    · rw [hc] at hn
      rw [timer_ticks hn, noteNap, if_pos hc]
      exact hp.nap p
    · rw [next_of_ne_timer hc] at hn
      by_cases hk : ∃ k, s.pcOf a.hart = .clockTick k
      · obtain ⟨k, hk⟩ := hk
        rw [(go_clockTick hn hk).1, noteNap, if_neg hc, hk]
        exact (hp.nap p).tick
      · rw [go_ticks hn (not_exists.1 hk), noteNap_ne hi hu (not_exists.1 hk)]
        exact hp.nap p
  · rw [ht]
    trivial

theorem nap_step (hp : Sleepers s g) (hi : Inv s) (hn : next s a.hart a.choice = some s')
    (p : Slot) : NapOk (noteNap s a g p) s'.ticks (s'.tpc p) := by
  by_cases hu : s.cur a.hart = some p
  · by_cases hc : a.choice = .timer
    · rw [hc] at hn
      rw [timer_ticks hn, noteNap, if_pos hc]
      exact napOk_timer hu (hp.nap p) hn
    · rw [next_of_ne_timer hc] at hn
      exact napOk_go hi hc hu hp.ticks (hp.nap p) hn
  · exact hp.nap_other hi hn hu

end Sleepers

section Checked

variable {s s' : State n} {h : Fin n} {pc k : Pc} {x : Nap} {t : Nat} {o : Option Slot}

theorem Silent.checked (hk : Silent s h pc k) (hc : Checked x t pc) (hw : pc.Wf o)
    (hl : ∀ p m st, pc ≠ .sleepLoop p m st) : Checked x t k := by
  cases hk
  case timerUser | timerKernel =>
    unfold clockintr
    split <;> simp
  case mm | sret => exact checked_of_not_ticks (by simp [hw.2.2])
  case trapYieldNo => exact checked_of_not_ticks (by simp [hw.2.2.1])
  case clockTick => exact .inl (Pc.steady_of_locks_eq_empty hw.2.2)
  case schedRet =>
    obtain ⟨p, -, he⟩ := hw.2.2.2.2
    exact checked_of_not_ticks (by simp [he])
  case sleepLoopSleep => exact absurd rfl (hl _ _ _)
  all_goals simp_all [failFork, reap]

theorem Update.checked {i : Slot} {q : Proc} (hu : Update s h pc i q k) (hc : Checked x t pc)
    (hw : pc.Wf o) : Checked x t k := by
  cases hu with
  | release _ r k _ =>
      cases r with
      | wait p => obtain ⟨v, rfl⟩ := hw.2; simp
      | kexit p => obtain ⟨st, g, rfl⟩ := hw.2; simp
      | sched => obtain rfl := hw.2; simp
      | fail p => obtain rfl := hw.2; simp
  | awake p lk k =>
      obtain ⟨-, c, hs⟩ := hw
      obtain ⟨-, rfl, a, rfl⟩ | ⟨-, rfl, m, st, rfl⟩ := hs <;> simp
  | _ => simp_all

theorem ThreadMove.checked {procs : Slot → Proc} (hm : ThreadMove s h pc procs k)
    (hc : Checked x t pc) (hx : ∀ l k, pc = .acq l k → l = .ticks → (∃ p m, k = .sleepStart p m) ∨
      (∃ p m st, k = .sleepLoop p m st) ∨ ∃ k', k = .clockTick k') (hw : pc.Wf o)
    (hl : ∀ p m st, pc ≠ .sleepLoop p m st) : Checked x t k := by
  cases hm with
  | silent hk => exact hk.checked hc hw hl
  | update i q hu => exact hu.checked hc hw
  | acq l k =>
      by_cases hlk : l = .ticks
      · obtain ⟨_, _, rfl⟩ | ⟨_, _, _, rfl⟩ | ⟨_, rfl⟩ := hx l k rfl hlk <;> trivial
      · exact hc hlk
  | rel l k =>
      by_cases hlk : l = .ticks
      · subst hlk
        exact checked_of_not_ticks hw.2.1
      · rwa [Checked, if_neg hlk] at hc
  | alloc p i => trivial
  | leave ia hl => trivial

end Checked

namespace Sleepers

variable {s s' : State n} {a : Label n} {g : Slot → Nap}

theorem ticks_eq (hn : next s a.hart a.choice = some s')
    (hk : ∀ k, s.pcOf a.hart ≠ .clockTick k) : s'.ticks = s.ticks := by
  by_cases hc : a.choice = .timer
  · rw [hc] at hn
    exact timer_ticks hn
  · rw [next_of_ne_timer hc] at hn
    exact go_ticks hn hk

theorem checked_other (hp : Sleepers s g) (hi : Inv s) (hn : next s a.hart a.choice = some s')
    {h : Fin n} {p : Slot} (hh : h ≠ a.hart) (hu : s'.cur h = some p) :
    Checked (noteNap s a g p) s'.ticks (s'.tpc p) := by
  have hs := next_step hn
  have hpc := hi.pcOf_step hs hh
  rw [s'.pcOf_some hu] at hpc
  rw [hs.cur_ne hh] at hu
  rw [hpc, s.pcOf_some hu]
  by_cases hl : .ticks ∈ (s.tpc p).locks
  · have hl' : .ticks ∉ (s.pcOf a.hart).locks := by
      rw [← s.pcOf_some hu] at hl
      exact fun hm => hh (hi.lock_inj hl hm)
    have hk : ∀ k, s.pcOf a.hart ≠ .clockTick k := by
      intro k he
      simp [he] at hl'
    rw [ticks_eq hn hk, noteNap_ne hi (fun he => hh (hi.cur_inj hu he)) hk]
    exact hp.checked h p hu
  · exact checked_of_not_ticks hl

/-- The thread of the hart. -/
theorem checked_own (hp : Sleepers s g) (hi : Inv s) (hn : next s a.hart a.choice = some s')
    {p : Slot} (hu : s.cur a.hart = some p) : Checked (noteNap s a g p) s'.ticks (s'.tpc p) := by
  have hm := hi.tpc_step_self (next_step hn) hu
  have hw := hi.wf a.hart
  rw [s.pcOf_some hu, hu] at hw
  by_cases hc : a.choice = .timer
  · rw [hc] at hn
    obtain ⟨k, -, rfl, hk⟩ := hi.timer_silent hn
    rw [State.tpc_setPc, if_pos (by exact hu)]
    exact checked_of_not_ticks (by simp [hk])
  rw [next_of_ne_timer hc] at hn
  have hpc := s.pcOf_some hu
  by_cases hloop : ∃ q m st, s.pcOf a.hart = .sleepLoop q m st
  · obtain ⟨q, m, st, he⟩ := hloop
    have hx := hp.nap p
    have hnote : noteNap s a g p = g p := by simp [noteNap, hc, he]
    rw [hnote, go_ticks hn (by simp [he])]
    rw [← hpc, he] at hx
    obtain ⟨hm, hst, -, -⟩ := hx
    simp only [go, he] at hn
    split at hn <;> simp only [Option.some.injEq] at hn
    · next hlt =>
      unfold sleep at hn
      rw [(hi.cur a.hart p hu).2] at hn
      rw [← hn, State.tpc_setPc, if_pos hu]
      intro _
      rw [Checked, if_pos rfl]
      refine .inr fun hlate => ?_
      rw [Nap.Late, hm, hst] at hlate
      omega
    · rw [← hn, State.tpc_setPc, if_pos hu]
      exact .inl (by simp)
  simp only [not_exists] at hloop
  by_cases hno : s.pcOf a.hart = .user ∨ (∃ q m, s.pcOf a.hart = .sleepStart q m) ∨
      ∃ k, s.pcOf a.hart = .clockTick k
  · -- before such a point nothing is known, and after it nothing needs to be
    rw [hpc] at hno hloop
    obtain he | ⟨q, m, he⟩ | ⟨k, he⟩ := hno <;>
      exact hm.checked (by rw [he]; trivial) (by simp [he]) hw hloop
  · simp only [not_or, not_exists] at hno
    rw [noteNap_of hno.1 hno.2.1 hno.2.2, go_ticks hn hno.2.2]
    refine hm.checked (hp.checked a.hart p hu) (fun l k he => ?_) hw (hpc ▸ hloop)
    have hx := hp.nap p
    rw [he] at hx
    exact hx.2

theorem checked_step (hp : Sleepers s g) (hi : Inv s) (hn : next s a.hart a.choice = some s')
    (h : Fin n) (p : Slot) (hu : s'.cur h = some p) :
    Checked (noteNap s a g p) s'.ticks (s'.tpc p) := by
  by_cases hh : h = a.hart
  · subst hh
    by_cases hu' : s.cur a.hart = some p
    · exact hp.checked_own hi hn hu'
    · -- the scheduler has just switched to the process
      refine checked_of_not_ticks ?_
      have hs := next_step hn
      cases hs with
      | silent _ _ _ _ | update _ | acq _ _ | rel _ _ _ | alloc _ | dispatch _ _ | back _
      | panic _ => exact absurd ((congrFun (State.cur_setPc ..) _).symm.trans hu) hu'
      | @enter i he =>
          obtain rfl : i = p := by simpa using hu
          have hc := Inv.cur_eq_none hi.toRunInv he fun _ => id
          rw [s.pcOf_none hc] at he
          obtain ⟨hrun, hres⟩ := hi.swtch a.hart i hc he
          have hwf := hi.wfT i (by simp [hrun, ProcState.Alive])
          simp [hres.locks hwf]
      | leave _ _ _ => simp at hu
  · exact hp.checked_other hi hn hh hu

/-! ## Who is yet to be woken -/

/-- The hart that has yet to look at a sleeper still has, unless it just did. -/
theorem ticking_own {h : Fin n} (hi : Inv s) (hs : Step s h s') {p : Slot}
    (hd : Asleep .ticks s' p) (hk : (s.pcOf h).Ticking p) : (s'.pcOf h).Ticking p := by
  obtain ⟨pc, procs, k, hpc, -, hk', hm⟩ := hi.move hs
  have hticks := Pc.ticks_mem_locks_of_ticking hk
  have hsie : (s.cpus h).sie = true → False := by
    intro hs
    rw [hi.locks_eq_empty hs] at hticks
    simp at hticks
  rw [hk']
  rw [hpc] at hk
  cases hm with
  | silent hsil =>
      cases hsil
      case timerUser hc _ | timerKernel hc _ => exact (hsie hc).elim
      case wakeupNext c i hi k => exact ⟨hk.1, hk.2.1, hk.2.2⟩
      case wakeupEnd c i hle => exact absurd (hk.2.1.trans_lt p.isLt) (not_lt.2 hle)
      case wakeCheckNo c i k _ =>
        obtain ⟨rfl, hle, hl⟩ := hk
        exact ⟨rfl, hd.ahead hi hs hpc hle, hl⟩
      all_goals simp_all
  | @update _ _ i x hu =>
      cases hu with
      | wake c _ k _ _ =>
          obtain ⟨rfl, hle, hl⟩ := hk
          exact ⟨rfl, hd.ahead hi hs hpc hle, hl⟩
      | _ => simp_all
  | acq l k _ | rel l k =>
      unfold Pc.Ticking at hk
      split at hk <;> simp_all
  | leave p hl _ =>
      rcases hl with rfl | ⟨q, rfl, -⟩ <;> simp at hk
  | enter | alloc | dispatch | back => simp at hk

/-- A process whose call writes the history is awake. -/
theorem not_asleep (hi : Inv s) {h : Fin n} {p : Slot} {c : Chan} (hu : s.cur h = some p)
    (hpl : (s.pcOf h).plain = true) (hst : (s.pcOf h).Steady) : ¬Asleep c s p := by
  rintro (⟨hw, -⟩ | ⟨h', lk, k, he⟩)
  · rw [s.pcOf_some hu] at hpl
    rw [((hi.on h p hu).1.1 hpl)] at hw
    cases hw
  · have hw := hi.wf h'
    rw [he] at hw
    obtain rfl := hi.cur_inj hu hw.1
    exact hst _ _ _ _ he

theorem pending_step (hp : Sleepers s g) (hi : Inv s) (hn : next s a.hart a.choice = some s')
    (p : Slot) (hd : Asleep .ticks s' p) (hl : (noteNap s a g p).Late s'.ticks) :
    ∃ h, (s'.pcOf h).Ticking p := by
  have hs := next_step hn
  by_cases hk : ∃ k, s.pcOf a.hart = .clockTick k
  · -- the clock has counted and looks at every slot now
    obtain ⟨k, hk⟩ := hk
    have hc := hi.choice_ne_timer (l := .ticks) hn (by simp [hk])
    rw [next_of_ne_timer hc] at hn
    refine ⟨a.hart, ?_⟩
    rw [(go_clockTick hn hk).2]
    exact ⟨rfl, Nat.zero_le _, by simp⟩
  simp only [not_exists] at hk
  have ht := ticks_eq hn hk
  rw [ht] at hl
  rcases asleep_step hi hs hd with hd' | ⟨lk, k, hrel, -⟩
  · have hnote : noteNap s a g p = g p := by
      by_cases hu : s.cur a.hart = some p
      · refine congrFun (noteNap_of ?_ ?_ hk) p
        · intro he
          exact not_asleep hi hu (by simp [he]) (by simp [he]) hd'
        · intro q m he
          exact not_asleep hi hu (by simp [he]) (by simp [he]) hd'
      · exact noteNap_ne hi hu hk
    rw [hnote] at hl
    obtain ⟨h, hh⟩ := hp.pending p hd' hl
    by_cases he : h = a.hart
    · subst he
      exact ⟨a.hart, ticking_own hi hs hd hh⟩
    · exact ⟨h, by rwa [hi.pcOf_step hs he]⟩
  · -- `sys_sleep` has looked at the clock before it sleeps
    have hw := hi.wf a.hart
    rw [hrel] at hw
    obtain ⟨hu, ⟨hc, -⟩ | ⟨-, rfl, -⟩⟩ := hw.1
    · cases hc
    have hch := hp.checked a.hart p hu
    rw [← s.pcOf_some hu, hrel, Checked, if_pos rfl] at hch
    rw [noteNap_of (by simp [hrel]) (by simp [hrel]) hk] at hl
    rcases hch with hst | hlate
    · exact absurd rfl (hst _ _ _ _)
    · exact absurd hl hlate

theorem step (hp : Sleepers s g) (hi : Inv s) (hn : next s a.hart a.choice = some s') :
    Sleepers s' (noteNap s a g) :=
  ⟨hp.ticks_step hn, hp.nap_step hi hn, hp.checked_step hi hn, hp.pending_step hi hn⟩

end Sleepers

/-! ## Every run -/

theorem inv_ticking {s : State n} (hr : (ticking n).Reachable s) : Inv s := by
  refine hr.invariant ?_ ?_
  · rintro _ ⟨t, -, rfl⟩
    exact ⟨inv_boot.toRunInv.setCounters 2 t, ⟨inv_boot.lock, inv_boot.depth, inv_boot.sie⟩,
      inv_boot.frees⟩
  · rintro s a s' - hi ⟨hn, -⟩
    exact step_inv hi (next_step hn)

theorem sleepers_boot {t : Nat} (ht : t < 2 ^ 32) (g : Slot → Nap) :
    Sleepers { boot n with ticks := t } g := by
  refine ⟨ht, fun p => trivial, fun h p hu => ?_, fun p hd => ?_⟩
  · cases hu
  · rcases hd with ⟨hst, -⟩ | ⟨h, lk, k, he⟩
    · simp only [boot] at hst
      split at hst <;> cases hst
    · cases he

/-- The history at boot. -/
def noNaps : Slot → Nap := fun _ => ⟨0, 0, 0⟩

theorem sleepers_reachable {s : State n} {g : Slot → Nap}
    (hr : ((ticking n).watch noNaps noteNap).Reachable (s, g)) : Sleepers s g := by
  refine hr.invariant (I := fun x => Sleepers x.1 x.2) ?_ ?_
  · rintro ⟨s, g⟩ ⟨⟨t, ht, rfl⟩, rfl⟩
    exact sleepers_boot ht _
  · rintro ⟨s, g⟩ a ⟨s', g'⟩ hr hp ⟨⟨hn, -⟩, rfl⟩
    exact hp.step (inv_ticking hr.of_watch) hn

/-- **`sleep(n)` neither returns early nor oversleeps.**  When `sys_sleep` returns 0, at least
as many ticks as it was asked for have happened since it read `start`; and whenever
`tickslock` is free, the deadline of every process asleep on `&ticks` is ahead. -/
theorem sleep_on_time {s : State n} {g : Slot → Nap}
    (hr : ((ticking n).watch noNaps noteNap).Reachable (s, g)) :
    (∀ h p, s.pcOf h = .sysret .sleep p 0 → (g p).asked ≤ (g p).elapsed) ∧
      (s.locks .ticks = none → ∀ p, (s.procs p).state = .waiting →
        (s.procs p).chan = some .ticks →
        (((s.ticks + 2 ^ 32 - (g p).start) % 2 ^ 32 : Nat) : Int) < (g p).asked) := by
  have hp := sleepers_reachable hr
  have hi := inv_ticking hr.of_watch
  refine ⟨fun h p he => ?_, fun hl p hst hch => ?_⟩
  · have hw := hi.wf h
    rw [he] at hw
    have hx := hp.nap p
    rw [← s.pcOf_some hw, he] at hx
    exact hx rfl rfl
  · by_contra hlate
    obtain ⟨h, hk⟩ := hp.pending p (.inl ⟨hst, hch⟩) (not_lt.1 hlate)
    rw [(hi.lock h .ticks).2 (Pc.ticks_mem_locks_of_ticking hk)] at hl
    cases hl

/-- `init` sleeps for one tick, at which `ticks` wraps to 0: asleep, it is on time, and when it
returns the tick has happened. -/
theorem sleep_on_time_wrapping :
    (∃ (s : State 1) (g : Slot → Nap), ((ticking 1).watch noNaps noteNap).Reachable (s, g) ∧
      (s.procs 0).state = .waiting ∧ s.ticks = 2 ^ 32 - 1 ∧
        (((s.ticks + 2 ^ 32 - (g 0).start) % 2 ^ 32 : Nat) : Int) < (g 0).asked) ∧
    ∃ (s : State 1) (g : Slot → Nap), ((ticking 1).watch noNaps noteNap).Reachable (s, g) ∧
      s.pcOf 0 = .sysret .sleep 0 0 ∧ s.ticks = 0 ∧ (g 0).asked = 1 ∧ 1 ≤ (g 0).elapsed := by
  have h0 : ((ticking 1).watch noNaps noteNap).Reachable
      ({ boot 1 with ticks := 2 ^ 32 - 1 }, noNaps) := .start ⟨⟨_, by decide, rfl⟩, rfl⟩
  constructor
  · have hrun : (runWatched noteNap ({ boot 1 with ticks := 2 ^ 32 - 1 }, noNaps)
        (goes 0 9 ++ [(0, .sleep 1)] ++ goes 0 10)).map (fun x => ((x.1.procs 0).state,
          (x.1.procs 0).chan, x.1.locks .ticks, x.1.ticks)) =
        some (.waiting, some .ticks, none, 2 ^ 32 - 1) := by
      decide +kernel
    obtain ⟨⟨s, g⟩, hx, he⟩ := Option.map_eq_some_iff.1 hrun
    simp only [Prod.mk.injEq] at he
    obtain ⟨hst, hch, hl, ht⟩ := he
    have hr := reachable_runWatched (T := ticking 1) rfl h0 hx
    exact ⟨s, g, hr, hst, ht, (sleep_on_time hr).2 hl 0 hst hch⟩
  · have hrun : (runWatched noteNap ({ boot 1 with ticks := 2 ^ 32 - 1 }, noNaps)
        (goes 0 9 ++ [(0, .sleep 1)] ++ goes 0 10 ++ [(0, .timer)] ++ goes 0 271)).map
          (fun x => (x.1.pcOf 0, x.1.ticks, (x.2 0).asked)) =
        some (.sysret .sleep 0 0, 0, 1) := by
      decide +kernel
    obtain ⟨⟨s, g⟩, hx, he⟩ := Option.map_eq_some_iff.1 hrun
    simp only [Prod.mk.injEq] at he
    obtain ⟨hp, ht, ha⟩ := he
    have hr := reachable_runWatched (T := ticking 1) rfl h0 hx
    refine ⟨s, g, hr, hp, ht, ha, ?_⟩
    have hle := (sleep_on_time hr).1 0 0 hp
    omega

end Wl00.Sched
