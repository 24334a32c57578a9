import Wl00.Sched.Steps

/-!
# What a hart does with its bookkeeping

A hart that holds no lock does not look at its `intena`, and no hart looks at the
bookkeeping of another (`go_follows`, `timer_follows`).  So a step of a hart that is outside
of `lock` and `unlock` is the same step where the bookkeeping differs in this.
-/

namespace Wl00.Sched

variable {n : Nat}

open Spinlock (Cpu pushOff popOff)

/-- `push_off` after it has read `sstatus`. -/
def pushOffRead (sie : Bool) (c : Cpu) : Cpu :=
  { depth := c.depth + 1
    intena := if c.depth = 0 then sie else c.intena
    sie := false }

/-- The last `pop_off` brings SIE back from `intena`. -/
theorem popOff_last {c d : Cpu} (hp : popOff c = .ok d) (h1 : c.depth = 1) : d.sie = c.intena := by
  unfold popOff at hp
  cases hs : c.sie
  · rw [hs, if_neg (by decide), if_neg (by omega)] at hp
    cases hp
    cases c.intena <;> simp [h1]
  · rw [if_pos hs] at hp
    cases hp

/-- The same, except for the `intena` of a hart that holds no lock. -/
structure Alike (c c' : Cpu) : Prop where
  depth : c.depth = c'.depth
  sie : c.sie = c'.sie
  intena : c'.depth ≠ 0 → c.intena = c'.intena

namespace Alike

variable {c c' : Cpu}

theorem refl (c : Cpu) : Alike c c := ⟨rfl, rfl, fun _ => rfl⟩

theorem pushOffRead (ha : Alike c c') : Sched.pushOffRead c'.sie c = pushOff c' := by
  obtain ⟨hd, -, hi⟩ := ha
  unfold Sched.pushOffRead pushOff
  rw [hd]
  split_ifs with h0
  · rfl
  · rw [hi h0]

/-- `pop_off` does the same to both. -/
theorem popOff (ha : Alike c c') {d' : Cpu} (hp : Spinlock.popOff c' = .ok d') :
    ∃ d, Spinlock.popOff c = .ok d ∧ Alike d d' := by
  obtain ⟨hd, hs, hi⟩ := ha
  unfold Spinlock.popOff at hp ⊢
  by_cases h1 : c'.sie = true
  · rw [if_pos h1] at hp
    cases hp
  by_cases h2 : c'.depth < 1
  · rw [if_neg h1, if_pos h2] at hp
    cases hp
  rw [if_neg h1, if_neg h2] at hp
  cases hp
  rw [hs, if_neg h1, hd, if_neg h2, hi (by omega)]
  exact ⟨_, rfl, .refl _⟩

/-- `pop_off` undoes `push_off`. -/
theorem popOff_pushOff (h0 : 0 ≤ c.depth) (hs : c.sie = true → c.depth = 0) :
    ∃ d, Spinlock.popOff (pushOff c) = .ok d ∧ Alike d c := by
  unfold Spinlock.popOff pushOff
  rw [if_neg (by simp), if_neg (by simp only; omega)]
  refine ⟨_, rfl, by simp, ?_, fun hne => by simp [hne]⟩
  by_cases hd : c.depth = 0
  · simp [hd]
  · have : c.sie = false := by
      cases hc : c.sie
      · rfl
      · exact absurd (hs hc) hd
    simp [hd, this]

end Alike

/-- The same machine with other bookkeeping. -/
def State.withCpus (s : State n) (C : Fin n → Cpu) : State n := { s with cpus := C }

namespace State

variable (s : State n) (C : Fin n → Cpu) (h : Fin n)

@[simp] theorem procs_withCpus : (s.withCpus C).procs = s.procs := rfl

@[simp] theorem locks_withCpus : (s.withCpus C).locks = s.locks := rfl

@[simp] theorem cpus_withCpus : (s.withCpus C).cpus = C := rfl

@[simp] theorem cproc_withCpus : (s.withCpus C).cproc = s.cproc := rfl

@[simp] theorem cur_withCpus : (s.withCpus C).cur = s.cur := rfl

@[simp] theorem ticks_withCpus : (s.withCpus C).ticks = s.ticks := rfl

@[simp] theorem currPid_withCpus : (s.withCpus C).currPid = s.currPid := rfl

@[simp] theorem pcOf_withCpus : (s.withCpus C).pcOf h = s.pcOf h := rfl

@[simp] theorem setProc_withCpus (i : Slot) (q : Proc) :
    (s.withCpus C).setProc i q = (s.setProc i q).withCpus C := rfl

@[simp] theorem setCproc_withCpus (o : Option Slot) :
    (s.withCpus C).setCproc h o = (s.setCproc h o).withCpus C := rfl

@[simp] theorem setPc_withCpus (k : Pc) : (s.withCpus C).setPc h k = (s.setPc h k).withCpus C := by
  unfold setPc withCpus
  cases s.cur h <;> rfl

end State

theorem sleep_withCpus (s : State n) (C : Fin n → Cpu) (h : Fin n) (c : Chan) (lk : Lock) (k : Pc) :
    sleep (s.withCpus C) h c lk k = (sleep s h c lk k).withCpus C := by
  unfold sleep
  rw [State.cproc_withCpus]
  split <;> simp

theorem yield_withCpus (s : State n) (C : Fin n → Cpu) (h : Fin n) (k : Pc) :
    yield (s.withCpus C) h k = (yield s h k).withCpus C := by
  unfold yield
  rw [State.cproc_withCpus]
  split <;> simp

/-- Not a point at which a hart reads or writes its bookkeeping. -/
def Pc.Calm : Pc → Prop
  | .acq _ _ | .rel _ _ | .user | .utrapret | .sret _ | .schedRet _ _ | .schedOn | .schedOff
  | .sched _ | .exitSched _ => False
  | _ => True

theorem go_calm (s : State n) (C : Fin n → Cpu) {h : Fin n} (c : Choice) (hp : (s.pcOf h).Calm) :
    go (s.withCpus C) h c = (go s h c).map (·.withCpus C) := by
  cases hpc : s.pcOf h <;> rw [hpc] at hp <;> simp only [go, State.pcOf_withCpus, hpc,
    State.procs_withCpus, State.locks_withCpus, State.cproc_withCpus, State.ticks_withCpus,
    State.setPc_withCpus, State.setProc_withCpus, State.setCproc_withCpus, sleep_withCpus, yield_withCpus]
  case acq | rel | user | utrapret | sret | schedRet | schedOn | schedOff | sched | exitSched =>
    exact hp.elim
  case clockTick k =>
    exact congrArg some (State.setPc_withCpus { s with ticks := (s.ticks + 1) % 2 ^ 32 } C h _)
  case paPid p i =>
    exact congrArg some (State.setPc_withCpus { s with currPid := succPid s.currPid } C h _)
  case paAlloc p i =>
    split
    · rfl
    · exact congrArg some
        (State.setPc_withCpus { s with tpc := Function.update s.tpc i (.forkret i) } C h _)
  all_goals (repeat' split) <;> rfl

theorem cpus_calm {s t : State n} {h : Fin n} {c : Choice} (hp : (s.pcOf h).Calm)
    (hg : go s h c = some t) : t.cpus = s.cpus := by
  have he := go_calm s s.cpus c hp
  rw [show s.withCpus s.cpus = s from rfl, hg, Option.map_some] at he
  rw [Option.some.inj he]
  rfl

section Bookkeeping

variable {s t : State n} {C : Fin n → Cpu} {h : Fin n} {c : Choice}

/-- Hart `h` has gone from `s` to `t`, and from the bookkeeping `C` the same step gives `o`:
the same state, with bookkeeping of `h` that is alike again. -/
def Follows (s t : State n) (C : Fin n → Cpu) (h : Fin n) (o : Option (State n)) : Prop :=
  ∃ d, o = some (t.withCpus (Function.update C h d)) ∧ Alike (t.cpus h) d ∧
    ∀ h', h' ≠ h → t.cpus h' = s.cpus h'

theorem Follows.same (ha : Alike (s.cpus h) (C h)) (hc : t.cpus = s.cpus) :
    Follows s t C h (some (t.withCpus C)) := by
  refine ⟨C h, ?_, ?_, fun h' _ => by rw [hc]⟩
  · rw [Function.update_eq_self]
  · rwa [hc]

theorem Follows.setSie (ha : Alike (s.cpus h) (C h)) (b : Bool) (k : Pc) :
    Follows s ((s.setSie h b).setPc h k) C h (some (((s.withCpus C).setSie h b).setPc h k)) := by
  refine ⟨{ C h with sie := b }, ?_, ?_, fun h' hh => ?_⟩
  · exact congrArg some (State.setPc_withCpus (s.setSie h b) _ h k)
  · simp only [State.setSie, State.cpus_setPc, State.setCpu, Function.update_self]
    exact ⟨ha.depth, rfl, ha.intena⟩
  · simp [State.setSie, State.setCpu, hh]

theorem unlock_of_held {l : Lock} {k : Pc} {d : Cpu} (hl : s.locks l = some h)
    (hd : popOff (s.cpus h) = .ok d) :
    unlock s h l k = ((s.setLock l none).setCpu h d).setPc h k := by
  unfold unlock
  rw [if_pos hl, hd]

/-- `sched` panics. -/
def Unfit (s : State n) (h : Fin n) (p : Slot) : Prop :=
  s.locks (.proc p) ≠ some h ∨ (s.cpus h).depth ≠ 1 ∨ (s.procs p).state = .running ∨
    (s.cpus h).sie = true

theorem sched_unfit {p : Slot} {k : Pc} (hp : s.cproc h = some p) (hu : Unfit s h p) :
    sched s h k = s.setPc h .panic := by
  unfold sched
  rw [hp]
  exact if_pos hu

theorem sched_fit {p : Slot} {k : Pc} (hp : s.cproc h = some p) (hu : ¬Unfit s h p) :
    sched s h k = { s with
      tpc := Function.update s.tpc p (.schedRet (s.cpus h).intena k)
      cur := Function.update s.cur h none } := by
  unfold sched
  rw [hp]
  exact if_neg hu

theorem Follows.sched (ha : Alike (s.cpus h) (C h)) (k : Pc) :
    Follows s (Sched.sched s h k) C h (some (Sched.sched (s.withCpus C) h k)) := by
  cases hp : s.cproc h with
  | none =>
      unfold Sched.sched
      rw [State.cproc_withCpus, hp]
      exact State.setPc_withCpus s C h _ ▸ .same ha (State.cpus_setPc ..)
  | some p =>
      have hiff : Unfit s h p ↔ Unfit (s.withCpus C) h p := by
        unfold Unfit
        rw [ha.depth, ha.sie]
        rfl
      by_cases hu : Unfit s h p
      · rw [sched_unfit hp hu, sched_unfit (s := s.withCpus C) hp (hiff.1 hu), State.setPc_withCpus]
        exact .same ha (State.cpus_setPc ..)
      · have h1 : (C h).depth ≠ 0 := by
          intro h0
          exact hu (.inr (.inl (by rw [ha.depth, h0]; decide)))
        rw [sched_fit hp hu, sched_fit (s := s.withCpus C) hp (hu ∘ hiff.2), ha.intena h1]
        exact Follows.same (t := { s with
          tpc := Function.update s.tpc p (.schedRet (C h).intena k)
          cur := Function.update s.cur h none }) ha rfl

theorem Follows.trap (ha : Alike (s.cpus h) (C h)) (ht : Sched.trap s h c = some t) :
    Follows s t C h (Sched.trap (s.withCpus C) h c) := by
  unfold Sched.trap at ht ⊢
  rw [State.cproc_withCpus]
  cases hp : s.cproc h with
  | none =>
      rw [hp] at ht
      cases ht
      exact State.setPc_withCpus s C h _ ▸ .same ha (State.cpus_setPc ..)
  | some p =>
      rw [hp] at ht
      dsimp only at ht ⊢
      split at ht
      case h_5 m =>
        split at ht <;> cases ht
        · next hm => rw [if_pos hm]; exact .setSie ha _ _
        · next hm => rw [if_neg hm]; exact .setSie ha _ _
      all_goals cases ht; try exact .setSie ha _ _

theorem timer_follows (ha : Alike (s.cpus h) (C h)) (ht : timer s h = some t) :
    Follows s t C h (timer (s.withCpus C) h) := by
  unfold timer at ht ⊢
  rw [State.cpus_withCpus, State.pcOf_withCpus, State.cproc_withCpus, ← ha.sie]
  by_cases hs : (s.cpus h).sie = true
  · rw [if_pos hs] at ht ⊢
    by_cases hp : s.pcOf h = .user
    · rw [if_pos hp] at ht ⊢
      cases hc : s.cproc h with
      | none =>
          rw [hc] at ht
          cases ht
          exact State.setPc_withCpus s C h _ ▸ .same ha (State.cpus_setPc ..)
      | some p =>
          rw [hc] at ht
          cases ht
          exact .setSie ha _ _
    · rw [if_neg hp] at ht ⊢
      cases ht
      exact .setSie ha _ _
  · rw [if_neg hs] at ht
    cases ht

/-- Outside of `lock` and `unlock`, a hart does the same whatever `intena` is when it holds
no lock, and whatever the other harts' bookkeeping is. -/
theorem go_follows (ha : Alike (s.cpus h) (C h)) (hacq : ∀ l k, s.pcOf h ≠ .acq l k)
    (hrel : ∀ l k, s.pcOf h ≠ .rel l k) (hg : go s h c = some t) :
    Follows s t C h (go (s.withCpus C) h c) := by
  by_cases hcalm : (s.pcOf h).Calm
  · rw [go_calm s C c hcalm, hg]
    exact .same ha (cpus_calm hcalm hg)
  · unfold go at hg ⊢
    rw [State.pcOf_withCpus]
    cases hp : s.pcOf h <;> rw [hp] at hg hcalm <;> dsimp only at hg ⊢
    case acq l k => exact absurd hp (hacq l k)
    case rel l k => exact absurd hp (hrel l k)
    case user => exact .trap ha hg
    case utrapret | sret | schedOn | schedOff =>
      cases hg
      exact .setSie ha _ _
    case sched | exitSched =>
      cases hg
      exact .sched ha _
    case schedRet ia k =>
      cases hg
      refine ⟨{ C h with intena := ia }, ?_, ?_, fun h' hh => ?_⟩
      · exact congrArg some (State.setPc_withCpus (s.setCpu h { s.cpus h with intena := ia }) _ h k)
      · simp only [State.cpus_setPc, State.setCpu, Function.update_self]
        exact ⟨ha.depth, ha.sie, fun _ => rfl⟩
      · simp [State.setCpu, hh]
    all_goals exact absurd trivial hcalm

end Bookkeeping

end Wl00.Sched
