import Wl00.Sched.Cpus
import Wl00.Sched.Interrupts

/-!
# Inside `lock`, `unlock` and `myproc`

The system of `Wl00.Sched.Basic` with these three opened: `push_off` reads `sstatus` before
it turns interrupts off, so that an interrupt may come in between and the thread may go on
on another hart; `lock` spins with interrupts off; and `unlock` has given the lock up before
`pop_off` turns interrupts on again.

A thread that is interrupted inside `lock` or `myproc` takes its place there along:
`Pc.frames` are the points at which a thread has been interrupted, and `go_frames` and
`timer_frames` say how they change.
-/

namespace Wl00.Sched

variable {n : Nat}

open Spinlock (Cpu pushOff popOff)

/-! ## The model -/

/-- Where a hart is in `lock`, `unlock` or `myproc`. -/
inductive Stage where
  /-- In none of them. -/
  | out
  /-- `lock`: `push_off` has read `sstatus` -/
  | lockRead (sie : Bool)
  /-- `lock`: `if (holding(lk))` -/
  | lockHolding
  /-- `lock`: the swap loop -/
  | lockSpin
  /-- `unlock`: `pop_off` -/
  | unlockPop
  /-- `myproc`: `push_off` has read `sstatus` -/
  | myprocRead (sie : Bool)
  /-- `myproc`: `pop_off` -/
  | myprocPop
  deriving DecidableEq

/-- The machine, with the place of each hart, and the places at which each thread has been
interrupted, newest first. -/
structure Fine (n : Nat) where
  base : State n
  stage : Fin n → Stage
  saved : Thread n → List Stage

/-- What comes next: a step of the hart as before, or a call of `myproc`. -/
inductive Act where
  | step (c : Choice)
  | myproc
  deriving DecidableEq

namespace Fine

def setStage (f : Fine n) (h : Fin n) (st : Stage) : Fine n :=
  { f with stage := Function.update f.stage h st }

@[simp] theorem stage_setStage (f : Fine n) (h : Fin n) (st : Stage) :
    (f.setStage h st).stage h = st := Function.update_self ..

@[simp] theorem base_setStage (f : Fine n) (h : Fin n) (st : Stage) :
    (f.setStage h st).base = f.base := rfl

def panic (f : Fine n) (h : Fin n) : Fine n := { f with base := f.base.setPc h .panic }

/-- `pop_off`, the end of `unlock` and of `myproc`. -/
def pop (f : Fine n) (h : Fin n) : Fine n :=
  match popOff (f.base.cpus h) with
  | .ok c => { f with base := f.base.setCpu h c }.setStage h .out
  | .error _ => f.panic h

/-- The next step of hart `h` outside of the three.  `unlock` starts with the check and the
swap; a return from an interrupt brings back the place where the thread was interrupted. -/
def goOut (f : Fine n) (h : Fin n) (c : Choice) : Option (Fine n) :=
  match f.base.pcOf h with
  | .acq _ _ => some (f.setStage h (.lockRead (f.base.cpus h).sie))
  | .rel l k =>
      if f.base.locks l = some h then
        some ({ f with base := (f.base.setLock l none).setPc h k }.setStage h .unlockPop)
      else some (f.panic h)
  | .sret _ => (go f.base h c).map fun s =>
      { f with
        base := s
        saved := Function.update f.saved (f.base.thread h) (f.saved (f.base.thread h)).tail }.setStage
          h ((f.saved (f.base.thread h)).headD .out)
  | .paAlloc _ i => (go f.base h c).map fun s =>
      { f with base := s, saved := if c = .fail then f.saved else Function.update f.saved (.proc i) [] }
  | _ => (go f.base h c).map fun s => { f with base := s }

/-- The next step of hart `h` inside the kernel. -/
def go (f : Fine n) (h : Fin n) (c : Choice) : Option (Fine n) :=
  match f.stage h with
  | .out => f.goOut h c
  | .lockRead sie =>
      some ({ f with base := f.base.setCpu h (pushOffRead sie (f.base.cpus h)) }.setStage h
        .lockHolding)
  | .lockHolding =>
      match f.base.pcOf h with
      | .acq l _ => if f.base.locks l = some h then some (f.panic h) else some (f.setStage h .lockSpin)
      | _ => none
  | .lockSpin =>
      match f.base.pcOf h with
      | .acq l k =>
          if f.base.locks l = none then
            some ({ f with base := (f.base.setLock l (some h)).setPc h k }.setStage h .out)
          else some f
      | _ => none
  | .unlockPop => some (f.pop h)
  | .myprocRead sie =>
      some ({ f with base := f.base.setCpu h (pushOffRead sie (f.base.cpus h)) }.setStage h .myprocPop)
  | .myprocPop => some (f.pop h)

/-- A timer interrupt on hart `h`.  From the kernel, the place is kept on the stack. -/
def timer (f : Fine n) (h : Fin n) : Option (Fine n) :=
  (Sched.timer f.base h).map fun s =>
    if f.base.pcOf h = .user then { f with base := s }
    else { f with
      base := s
      saved := Function.update f.saved (f.base.thread h) (f.stage h :: f.saved (f.base.thread h)) }.setStage
        h .out

/-- One step of hart `h`. -/
def next (f : Fine n) (h : Fin n) : Act → Option (Fine n)
  | .myproc =>
      if f.stage h = .out ∧ f.base.pcOf h ≠ .user then
        some (f.setStage h (.myprocRead (f.base.cpus h).sie))
      else none
  | .step c => if c = .timer then f.timer h else f.go h c

/-- What becomes of the history.  The first lock is taken when `push_off` turns interrupts
off. -/
def note (f : Fine n) (a : Fin n × Act) (g : Thread n → Option First) : Thread n → Option First :=
  match a.2 with
  | .myproc => g
  | .step c =>
      match f.stage a.1 with
      | .lockRead _ =>
          if c ≠ .timer ∧ (f.base.cpus a.1).depth = 0 then
            Function.update g (f.base.thread a.1) (some ⟨(f.base.cpus a.1).sie, false⟩)
          else g
      | .out =>
          match f.base.pcOf a.1 with
          | .acq _ _ => g
          | _ => noteFirst f.base ⟨a.1, c, .tau⟩ g
      | _ => g

end Fine

/-- `n` harts running the kernel from boot. -/
def fineSystem (n : Nat) : Lts (Fine n) (Fin n × Act) :=
  .ofNext (fun f => f = ⟨boot n, fun _ => .out, fun _ => []⟩) fun f a => f.next a.1 a.2

/-! ## Interrupted threads -/

/-- The points at which this thread has been interrupted, newest first. -/
@[simp] def Pc.frames : Pc → List Pc
  | .sret k => k :: frames k
  | .acq _ k | .rel _ k | .mm k | .trapYield _ k | .wakeup _ _ k | .sched k | .schedRet _ k
  | .clockTick k | .wakeCheck _ _ k | .yieldSet _ k | .sleepSet _ _ _ k | .sleepWake _ _ k
  | .release _ _ k => frames k
  | _ => []

/-- The point of a thread. -/
def State.pcAt (s : State n) : Thread n → Pc
  | .sched h => s.spc h
  | .proc p => s.tpc p

@[simp] theorem State.thread_withCpus (s : State n) (C : Fin n → Cpu) (h : Fin n) :
    (s.withCpus C).thread h = s.thread h := rfl

theorem State.pcAt_thread (s : State n) (h : Fin n) : s.pcAt (s.thread h) = s.pcOf h := by
  unfold State.thread State.pcOf
  cases s.cur h <;> rfl

theorem State.pcAt_setPc (s : State n) (h : Fin n) (k : Pc) (t : Thread n) :
    (s.setPc h k).pcAt t = if t = s.thread h then k else s.pcAt t := by
  unfold State.thread State.setPc
  cases s.cur h <;> cases t <;> simp [State.pcAt, Function.update_apply]

section Frames

variable {s t : State n} {h : Fin n} {c : Choice}

theorem frames_setPc {k : Pc} (hc : t.cur = s.cur) (hp : t.pcAt = s.pcAt)
    (hk : k.frames = (s.pcOf h).frames) (th : Thread n) :
    ((t.setPc h k).pcAt th).frames = (s.pcAt th).frames := by
  have hth : t.thread h = s.thread h := by rw [State.thread, State.thread, hc]
  rw [State.pcAt_setPc, hth]
  split
  · next he => rw [he, State.pcAt_thread, hk]
  · rw [hp]

theorem sched_frames (hi : Inv s) {k : Pc} (hl : Leaves (s.pcOf h) k)
    (hk : k.frames = (s.pcOf h).frames) :
    (∀ th, ((sched s h k).pcAt th).frames = (s.pcAt th).frames) ∨ (sched s h k).pcOf h = .panic := by
  obtain ⟨p, hu, -⟩ := hl.locks (hi.wf h)
  have hc := (hi.cur h p hu).2
  by_cases hfit : Unfit s h p
  · rw [sched_unfit hc hfit]
    exact .inr (State.pcOf_setPc_self ..)
  · rw [sched_fit hc hfit]
    left
    rintro (h' | q)
    · rfl
    · by_cases hq : q = p
      · subst hq
        simp only [State.pcAt, Function.update_self, Pc.frames]
        rw [hk, s.pcOf_some hu]
      · simp only [State.pcAt, Function.update_of_ne hq]

/-- The interrupts that a thread has yet to return from change with interrupts and with
returns from them only. -/
theorem go_frames (hi : Inv s) (hg : go s h c = some t) (hacq : ∀ l k, s.pcOf h ≠ .acq l k)
    (hrel : ∀ l k, s.pcOf h ≠ .rel l k) (hret : ∀ k, s.pcOf h ≠ .sret k)
    (hall : ∀ p i, s.pcOf h ≠ .paAlloc p i) :
    (∀ th, (t.pcAt th).frames = (s.pcAt th).frames) ∨ t.pcOf h = .panic := by
  cases hp : s.pcOf h <;> simp only [go, hp] at hg
  case acq l k => exact absurd hp (hacq l k)
  case rel l k => exact absurd hp (hrel l k)
  case sret k => exact absurd hp (hret k)
  case paAlloc p i => exact absurd hp (hall p i)
  case panic => cases hg
  case user =>
    unfold trap at hg
    (repeat' split at hg) <;> cases hg <;>
      first
        | exact .inr (State.pcOf_setPc_self ..)
        | exact .inl (frames_setPc rfl rfl (by rw [hp]; rfl))
  case sched k =>
    cases hg
    exact sched_frames hi (.inl hp) (by rw [hp]; rfl)
  case exitSched p =>
    cases hg
    exact sched_frames hi (.inr ⟨p, hp, rfl⟩) (by rw [hp]; rfl)
  case schedSwtch i =>
    cases hg
    left
    rintro (h' | q)
    · by_cases hh : h' = h
      · subst hh
        rw [s.pcOf_none (Inv.cur_eq_none hi.toRunInv hp fun _ => id)] at hp
        simp [State.pcAt, hp]
      · simp [State.pcAt, hh]
    · rfl
  all_goals
    (repeat' split at hg) <;> cases hg <;> (try unfold yield) <;> (try unfold sleep) <;> (try split) <;>
      first
        | exact .inr (State.pcOf_setPc_self ..)
        | exact .inl (frames_setPc rfl rfl (by rw [hp]; rfl))

theorem frames_clockintr (h : Fin n) (k : Pc) : (clockintr h k).frames = k.frames := by
  unfold clockintr
  split <;> rfl

/-- An interrupt in the kernel adds the point at which it comes. -/
theorem timer_frames (hi : Inv s) (ht : timer s h = some t) (th : Thread n) :
    (t.pcAt th).frames = if th = s.thread h ∧ s.pcOf h ≠ .user then s.pcOf h :: (s.pcOf h).frames
      else (s.pcAt th).frames := by
  have hset : ∀ k, ((s.setSie h false).setPc h k).pcAt th =
      if th = s.thread h then k else s.pcAt th := fun k => State.pcAt_setPc (s.setSie h false) h k th
  unfold timer at ht
  split at ht
  · by_cases hp : s.pcOf h = .user
    · have hw := hi.wf h
      rw [hp] at hw
      obtain ⟨p, hu⟩ := Option.ne_none_iff_exists'.1 hw
      rw [if_pos hp, (hi.cur h p hu).2] at ht
      cases ht
      rw [hset]
      by_cases he : th = s.thread h
      · rw [if_pos he, if_neg fun hc => hc.2 hp, frames_clockintr, he, State.pcAt_thread, hp]
        rfl
      · rw [if_neg he, if_neg fun hc => he hc.1]
    · rw [if_neg hp] at ht
      cases ht
      rw [hset]
      by_cases he : th = s.thread h
      · rw [if_pos he, if_pos ⟨he, hp⟩, frames_clockintr]
        rfl
      · rw [if_neg he, if_neg fun hc => he hc.1]
  · cases ht

end Frames

end Wl00.Sched
