import Wl00.Sched.Wrap

/-!
# The pids of the processes

As long as `curr_pid` has not overflowed, a pid that `allocpid` returns is above all
pids that have been handed out before (`Issued`).  So the slots have different pids,
only `init` has pid 1, and what `fork` returns to the parent is positive exactly if
there is a child.

* `pids_unique` — this, in every run in which `allocpid` returns positive numbers only.
* `pids_repeat` — a run in which a second process gets pid 1.
-/

namespace Wl00.Sched

variable {n : Nat}

/-! ## What a system call has made -/

/-- The child that the last system call of each process has made. -/
def noteChild (s : State n) (a : Label n) (g : Slot → Option Slot) : Slot → Option Slot :=
  match s.pcOf a.hart with
  | .user =>
      match s.cproc a.hart with
      | some p => Function.update g p none
      | none => g
  | .forkPublish p i _ => Function.update g p (some i)
  | _ => g

/-- Live processes have different pids, only `init` has pid 1 (in the slot that has never
been released), and the value that `fork` returns is positive exactly if it has made a
child. -/
structure PidsOk (s : State n) (g : Slot → Option Slot) : Prop where
  unique : ∀ q q', (s.procs q).state.Alive → (s.procs q').state.Alive →
    (s.procs q).pid = (s.procs q').pid → q = q'
  init : ∀ q, (s.procs q).state.Alive → (s.procs q).pid = 1 → q = 0 ∧ (s.procs q).gen = 0
  fork : ∀ h p v, s.pcOf h = .sysret .fork p v → (0 < v ↔ ∃ i, g p = some i)

/-- `allocpid` returns a positive number: `curr_pid` has not overflowed. -/
def Counts (_ : State n) (a : Label n) : Prop :=
  match a.event with
  | .allocpid v => 0 < v
  | _ => True

instance (s : State n) (a : Label n) : Decidable (Counts s a) :=
  decidable_of_iff ((match a.event with
    | .allocpid v => decide (0 < v)
    | _ => true) = true) (by unfold Counts; cases a.event <;> simp)

/-! ## How far `fork` has come -/

namespace Pc

/-- What a thread in `fork` knows, if its system call has made the child `g` so far. -/
@[simp] def Forks (pid : Slot → Int) (g : Option Slot) : Pc → Prop
  | .acq _ k | .rel _ k | .mm k | .trapYield _ k | .sret k | .wakeup _ _ k | .sched k
  | .schedRet _ k | .clockTick k | .wakeCheck _ _ k | .yieldSet _ k | .sleepSet _ _ _ k
  | .sleepWake _ _ k => Forks pid g k
  | .paScan _ _ | .paCheck _ _ | .paPid _ _ | .paSetPid _ _ _ | .release _ (.fail _) _ => g = none
  | .paAlloc _ i | .forkCopy _ i | .forkPid _ i => g = none ∧ 2 ≤ pid i
  | .forkPublish _ i v => g = none ∧ 2 ≤ pid i ∧ 2 ≤ v
  | .sysret .fork _ v => v = -1 ∧ g = none ∨ 0 < v ∧ g ≠ none
  | _ => True

/-- It knows the pid of the slot it has claimed only. -/
theorem Forks.congr {pid pid' : Slot → Int} {g : Option Slot} {pc : Pc} (hf : pc.Forks pid g)
    (hp : ∀ i b, pc.claims = some (i, b) → pid' i = pid i) : pc.Forks pid' g := by
  induction pc with
  | release q r k _ => cases r <;> exact hf
  | sysret c p v => cases c <;> exact hf
  | _ => simp_all

end Pc

theorem Silent.forks {s : State n} {h : Fin n} {pc k : Pc} {g : Option Slot} {t : Option Slot}
    (hk : Silent s h pc k) (hw : pc.Wf t) (hf : pc.Forks (fun i => (s.procs i).pid) g)
    (hu : pc = .user → g = none) : k.Forks (fun i => (s.procs i).pid) g := by
  cases hk
  case timerUser | timerKernel =>
    unfold clockintr
    split <;> simp_all
  all_goals simp_all [failFork, reap]

/-! ## The pids handed out -/

/-- A pid that `allocpid` has returned before. -/
def Issued (s : State n) (v : Int) : Prop := 2 ≤ v ∧ (s.currPid ≤ 0 ∨ v < s.currPid)

/-- What holds while `curr_pid` has not overflowed, or has just done so. -/
structure Pids (s : State n) (g : Slot → Option Slot) : Prop where
  counter : s.currPid ≤ 0 ∨ 2 ≤ s.currPid ∧ s.currPid < 2 ^ 31
  issued : ∀ x, (s.procs x).pid = 0 ∨ (s.procs x).pid = 1 ∨ Issued s (s.procs x).pid
  new : NewPids (fun v => Issued s v ∧ ∀ x, (s.procs x).pid ≠ v) s
  newUniq : ∀ p p' v, (s.tpc p).newPid = some v → (s.tpc p').newPid = some v → p = p'
  uniq : ∀ x y, (s.procs x).pid ≠ 0 → (s.procs x).pid = (s.procs y).pid → x = y
  one : ∀ x, (s.procs x).pid = 1 → x = 0 ∧ (s.procs x).gen = 0
  alive : ∀ x, (s.procs x).state.Alive → (s.procs x).pid ≠ 0
  forks : ∀ p, (s.tpc p).Forks (fun i => (s.procs i).pid) (g p)

section Step

variable {s s' : State n} {h : Fin n} {g : Slot → Option Slot}

/-- The pid of a slot changes when `procalloc` stores it and when the slot is released. -/
theorem Inv.pid_step (hi : Inv s) (hs : Step s h s') (x : Slot) :
    ((s'.procs x).pid = (s.procs x).pid ∧ (s'.procs x).gen = (s.procs x).gen) ∨
      (∃ p v, s.pcOf h = .paSetPid p x v ∧ s'.pcOf h = .mm (.paAlloc p x) ∧
        s'.procs x = { s.procs x with pid := v }) ∨
      ∃ r k, s.pcOf h = .release x r k ∧ s'.procs x = releaseproc (s.procs x) := by
  rcases hi.proc_step hs x with he | hu | ⟨-, -, he⟩
  · exact .inl (by rw [he]; exact ⟨rfl, rfl⟩)
  · generalize s.pcOf h = pc at hu
    generalize s'.procs x = q at hu
    generalize s'.pcOf h = k at hu
    cases hu with
    | setPid p _ v => exact .inr (.inl ⟨p, v, rfl, rfl, rfl⟩)
    | release _ r k _ => exact .inr (.inr ⟨r, k, rfl, rfl⟩)
    | _ => exact .inl ⟨rfl, rfl⟩
  · exact .inl (by rw [he]; exact ⟨rfl, rfl⟩)

/-- The counter overflows or counts. -/
theorem succPid_of_pos {v : Int} (hpos : 0 < v) (hlt : v < 2 ^ 31) :
    succPid v ≤ 0 ∨ succPid v = v + 1 ∧ v + 1 < 2 ^ 31 := by
  by_cases hmax : v = 2 ^ 31 - 1
  · left
    rw [hmax]
    decide
  · right
    exact ⟨Int.bmod_eq_of_le (by omega) (by omega), by omega⟩

/-- `allocpid` returns a pid above all that have been handed out. -/
theorem Issued.lt {v : Int} (hv : Issued s v) (hc : 0 < s.currPid) : v < s.currPid :=
  hv.2.resolve_left (by omega)

theorem Issued.step {v : Int} (hv : Issued s v) (hp : s'.currPid = s.currPid ∨
    0 < s.currPid ∧ s.currPid < 2 ^ 31 ∧ s'.currPid = succPid s.currPid) : Issued s' v := by
  rcases hp with he | ⟨hpos, hlt, he⟩
  · exact ⟨hv.1, by rw [he]; exact hv.2⟩
  · have := hv.lt hpos
    have := succPid_of_pos hpos hlt
    exact ⟨hv.1, by omega⟩

/-- A pid on its way into a slot was so before, or `allocpid` returns it. -/
theorem Inv.newPid_step (hi : Inv s) (hs : Step s h s') {p : Slot} {v : Int}
    (hv : (s'.tpc p).newPid = some v) : (s.tpc p).newPid = some v ∨
      s.cur h = some p ∧ (∃ q i, s.pcOf h = .paPid q i) ∧ v = s.currPid := by
  rcases hi.tpc_step hs p with he | ⟨hu, hm⟩ | ⟨-, he⟩
  · exact .inl (he ▸ hv)
  · rcases hm.newPid hv with hv | ⟨q, i, he, rfl⟩
    · exact .inl hv
    · exact .inr ⟨hu, ⟨q, i, by rw [s.pcOf_some hu, he]⟩, rfl⟩
  · rw [he] at hv
    cases hv

theorem noteChild_ne (hi : Inv s) {a : Label n} {p : Slot} (hne : s.cur a.hart ≠ some p) :
    noteChild s a g p = g p := by
  have hw := hi.wf a.hart
  unfold noteChild
  cases hp : s.pcOf a.hart <;> rw [hp] at hw
  case user =>
    obtain ⟨q, hu⟩ := Option.ne_none_iff_exists'.1 hw
    have hqp : p ≠ q := fun he => hne (he ▸ hu)
    rw [(hi.cur _ q hu).2]
    exact Function.update_of_ne hqp _ _
  case forkPublish q i v =>
    have hu : s.cur a.hart = some q := hw
    have hqp : p ≠ q := fun he => hne (he ▸ hu)
    exact Function.update_of_ne hqp _ _

namespace Pids

/-- Another thread does not touch the slot that a thread in `fork` has claimed. -/
theorem forks_other (hp : Pids s g) (hi : Inv s) {a : Label n} (hs : Step s a.hart s') {p : Slot}
    (hu : s.cur a.hart ≠ some p) :
    (s'.tpc p).Forks (fun i => (s'.procs i).pid) (noteChild s a g p) := by
  rw [noteChild_ne hi hu]
  rcases hi.tpc_step_other hs hu with he | ⟨-, he⟩
  · rw [he]
    refine (hp.forks p).congr fun i b hc => ?_
    have hnew := (hi.claim p i b hc).1
    have hown : ∀ b', (s.pcOf a.hart).claims ≠ some (i, b') := fun b' hb =>
      (hi.claim_own hb).2.2 p b hu hc
    rcases hi.pid_step hs i with ⟨h1, -⟩ | ⟨q, v, hpc, -, -⟩ | ⟨r, k, hpc, -⟩
    · exact h1
    · exact absurd (by rw [hpc]; rfl) (hown false)
    · have hz := hi.frees a.hart i
      rw [hpc, hnew] at hz
      rw [hpc] at hown
      cases r with
      | fail q => exact absurd rfl (hown false)
      | _ => cases hz rfl
  · rw [he]
    trivial

/-- The thread that moves knows what it has done. -/
theorem forks_self (hp : Pids s g) (hi : Inv s) {a : Label n} (hs : Step s a.hart s') {p : Slot}
    (hu : s.cur a.hart = some p) :
    (s'.tpc p).Forks (fun i => (s'.procs i).pid) (noteChild s a g p) := by
  have hpc := s.pcOf_some hu
  have hw := hi.wf a.hart
  have hf := hp.forks p
  have hnew := hp.new p
  rw [hu, hpc] at hw
  -- what becomes of the history variable depends on the point alone
  have hnote : noteChild s a g p = match s.tpc p with
      | .user => none
      | .forkPublish _ i _ => some i
      | _ => g p := by
    unfold noteChild
    rw [hpc, (hi.cur _ p hu).2]
    generalize s.tpc p = pc at hw
    cases pc
    case forkPublish q i v =>
      obtain rfl : p = q := Option.some.inj hw
      simp
    all_goals simp
  have hm := hi.tpc_step_self hs hu
  have hquiet := fun hsie => hi.locks_eq_empty (h := a.hart) hsie
  rw [hpc] at hquiet
  rw [hnote]
  generalize s.tpc p = pc at hw hf hnew hm hquiet
  generalize s'.tpc p = k at hm
  generalize s'.procs = procs at hm ⊢
  cases hm with
  | silent hk =>
      refine hk.forks hw ?_ (by rintro rfl; rfl)
      cases pc
      case forkPublish q i v =>
        cases hk with
        | timerKernel _ hsie _ => exact absurd (hquiet hsie) (by simp)
      all_goals exact hf
  | update i q hu =>
      have hsame : q.pid = (s.procs i).pid →
          (fun j => (Function.update s.procs i q j).pid) = fun j => (s.procs j).pid := by
        intro hq
        funext j
        by_cases hj : j = i
        · rw [hj, Function.update_self, hq]
        · rw [Function.update_of_ne hj]
      cases hu with
      | setPid p' _ v => exact ⟨hf, by simpa using (hnew v rfl).1.1⟩
      | publish p' _ v => exact .inr ⟨by have := hf.2.2; omega, by simp⟩
      | release _ r k _ =>
          cases r with
          | wait p' => obtain ⟨v, rfl⟩ := hw.2; trivial
          | kexit p' => obtain ⟨st, g, rfl⟩ := hw.2; trivial
          | sched => obtain rfl := hw.2; trivial
          | fail p' => obtain rfl := hw.2; exact .inl ⟨rfl, hf⟩
      | _ =>
          rw [hsame rfl]
          exact hf
  | acq l k | rel l k => exact hf
  | alloc p' i => exact hf
  | leave ia hl =>
      rcases hl with rfl | ⟨p, rfl, rfl⟩
      · exact hf
      · trivial

/-- What `procalloc` is about to store. -/
theorem new_of_pcOf (hp : Pids s g) (hi : Inv s) {p x : Slot} {v : Int}
    (hpc : s.pcOf h = .paSetPid p x v) :
    (s.tpc p).newPid = some v ∧ Issued s v ∧ ∀ y, (s.procs y).pid ≠ v := by
  have hw := hi.wf h
  rw [hpc] at hw
  have hu : s.cur h = some p := hw
  rw [s.pcOf_some hu] at hpc
  have hv : (s.tpc p).newPid = some v := by rw [hpc]; rfl
  exact ⟨hv, hp.new p v hv⟩

section

variable (hp : Pids s g) (hi : Inv s) (hs : Step s h s')
  (hc : s'.currPid = s.currPid ∧ (∀ p i, s.pcOf h ≠ .paPid p i) ∨
    0 < s.currPid ∧ (∃ p i, s.pcOf h = .paPid p i) ∧ s'.currPid = succPid s.currPid)

include hp hc in
theorem counter_step : s'.currPid ≤ 0 ∨ 2 ≤ s'.currPid ∧ s'.currPid < 2 ^ 31 := by
  rcases hc with ⟨he, -⟩ | ⟨hpos, -, he⟩ <;> rw [he]
  · exact hp.counter
  · obtain ⟨hlo, hhi⟩ := hp.counter.resolve_left (by omega)
    have := succPid_of_pos hpos hhi
    omega

include hp hc in
theorem issued_step {v : Int} (hv : Issued s v) : Issued s' v := by
  refine hv.step ?_
  rcases hc with ⟨he, -⟩ | ⟨hpos, -, he⟩
  · exact .inl he
  · exact .inr ⟨hpos, (hp.counter.resolve_left (by omega)).2, he⟩

include hp hi hs hc in
theorem new_step (p : Slot) (v : Int) (hv : (s'.tpc p).newPid = some v) :
    Issued s' v ∧ ∀ x, (s'.procs x).pid ≠ v := by
  rcases hi.newPid_step hs hv with hold | ⟨hu, ⟨q, i, hpc⟩, rfl⟩
  · obtain ⟨hiss, hne⟩ := hp.new p v hold
    refine ⟨hp.issued_step hc hiss, fun x => ?_⟩
    rcases hi.pid_step hs x with ⟨h1, -⟩ | ⟨q, w, hpc, hpc', he⟩ | ⟨r, k, -, he⟩
    · rw [h1]
      exact hne x
    · -- two pids on their way are different, and this one has arrived
      rw [he]
      rintro rfl
      have hw := hi.wf h
      rw [hpc] at hw
      have hu : s.cur h = some q := hw
      obtain rfl := hp.newUniq p q w hold (hp.new_of_pcOf hi hpc).1
      have hu' : s'.cur h = some p := by
        have := (step_inv hi hs).wf h
        rw [hpc'] at this
        exact this.1
      rw [← s'.pcOf_some hu', hpc'] at hv
      cases hv
    · rw [he]
      have := hiss.1
      simp only [releaseproc]
      omega
  · rcases hc with ⟨-, hno⟩ | ⟨hpos, -, he⟩
    · exact absurd hpc (hno q i)
    · obtain ⟨hlo, hhi⟩ := hp.counter.resolve_left (by omega)
      have hsucc := succPid_of_pos hpos hhi
      refine ⟨⟨hlo, by omega⟩, fun x => ?_⟩
      · have hx : (s'.procs x).pid = (s.procs x).pid := by
          rcases hi.pid_step hs x with ⟨h1, -⟩ | ⟨_, _, hpc', -⟩ | ⟨_, _, hpc', -⟩
          · exact h1
          · rw [hpc] at hpc'
            cases hpc'
          · rw [hpc] at hpc'
            cases hpc'
        rw [hx]
        rcases hp.issued x with h0 | h1 | h2
        · omega
        · omega
        · have := h2.lt hpos
          omega

include hp hi hs hc in
theorem newUniq_step (p p' : Slot) (v : Int) (hv : (s'.tpc p).newPid = some v)
    (hv' : (s'.tpc p').newPid = some v) : p = p' := by
  -- what `allocpid` returns now is on its way nowhere else
  have hfresh : ∀ q, (∃ p i, s.pcOf h = .paPid p i) → (s.tpc q).newPid ≠ some s.currPid := by
    intro q hpc hq
    rcases hc with ⟨-, hno⟩ | ⟨hpos, -, -⟩
    · obtain ⟨p, i, hpc⟩ := hpc
      exact hno p i hpc
    · have := (hp.new q _ hq).1.lt hpos
      omega
  rcases hi.newPid_step hs hv with h1 | ⟨hu, hpc, rfl⟩
  · rcases hi.newPid_step hs hv' with h2 | ⟨-, hpc, rfl⟩
    · exact hp.newUniq p p' v h1 h2
    · exact absurd h1 (hfresh p hpc)
  · rcases hi.newPid_step hs hv' with h2 | ⟨hu', -, -⟩
    · exact absurd h2 (hfresh p' hpc)
    · exact Option.some.inj (hu.symm.trans hu')

include hp hi hs hc in
theorem slot_issued_step (x : Slot) :
    (s'.procs x).pid = 0 ∨ (s'.procs x).pid = 1 ∨ Issued s' (s'.procs x).pid := by
  rcases hi.pid_step hs x with ⟨h1, -⟩ | ⟨p, v, hpc, -, he⟩ | ⟨r, k, -, he⟩
  · rw [h1]
    exact (hp.issued x).imp_right (Or.imp_right (hp.issued_step hc))
  · rw [he]
    exact .inr (.inr (hp.issued_step hc (hp.new_of_pcOf hi hpc).2.1))
  · exact .inl (by rw [he]; rfl)

include hp hi hs in
theorem uniq_step (x y : Slot) (h0 : (s'.procs x).pid ≠ 0)
    (he : (s'.procs x).pid = (s'.procs y).pid) : x = y := by
  rcases hi.pid_step hs x with ⟨h1, -⟩ | ⟨p, v, hpc, -, h1⟩ | ⟨r, k, -, h1⟩
  · rcases hi.pid_step hs y with ⟨h2, -⟩ | ⟨p, v, hpc, -, h2⟩ | ⟨r, k, -, h2⟩
    · rw [h1] at h0
      rw [h1, h2] at he
      exact hp.uniq x y h0 he
    · rw [h1, h2] at he
      exact absurd he ((hp.new_of_pcOf hi hpc).2.2 x)
    · rw [he, h2] at h0
      exact absurd rfl h0
  · rcases hi.pid_step hs y with ⟨h2, -⟩ | ⟨p', v', hpc', -, -⟩ | ⟨r, k, -, h2⟩
    · rw [h1, h2] at he
      exact absurd he.symm ((hp.new_of_pcOf hi hpc).2.2 y)
    · rw [hpc] at hpc'
      cases hpc'
      rfl
    · rw [he, h2] at h0
      exact absurd rfl h0
  · rw [h1] at h0
    exact absurd rfl h0

include hp hi hs in
theorem one_step (x : Slot) (h1 : (s'.procs x).pid = 1) : x = 0 ∧ (s'.procs x).gen = 0 := by
  rcases hi.pid_step hs x with ⟨he, hg⟩ | ⟨p, v, hpc, -, he⟩ | ⟨r, k, -, he⟩
  · rw [he] at h1
    rw [hg]
    exact hp.one x h1
  · have := (hp.new_of_pcOf hi hpc).2.1.1
    rw [he] at h1
    simp only at h1
    omega
  · rw [he] at h1
    cases h1

include hp hi hs in
theorem alive_step (x : Slot) (ha : (s'.procs x).state.Alive) : (s'.procs x).pid ≠ 0 := by
  rcases hi.pid_step hs x with ⟨he, -⟩ | ⟨p, v, hpc, -, he⟩ | ⟨r, k, -, he⟩
  · rw [he]
    rcases hi.alive_step hs ha with hold | ⟨p, v, hpc⟩
    · exact hp.alive x hold
    · have hw := hi.wf h
      rw [hpc] at hw
      have hu : s.cur h = some p := hw
      have hf := hp.forks p
      rw [← s.pcOf_some hu, hpc] at hf
      have : 2 ≤ (s.procs x).pid := hf.2.1
      omega
  · have := (hp.new_of_pcOf hi hpc).2.1.1
    rw [he]
    simp only
    omega
  · rw [he] at ha
    exact absurd rfl ha.1

end

theorem step (hp : Pids s g) (hi : Inv s) {a : Label n} (hstep : (system n).step s a s')
    (hc : Counts s a) : Pids s' (noteChild s a g) := by
  obtain ⟨hn, he⟩ := hstep
  have hs := next_step hn
  have hcount : s'.currPid = s.currPid ∧ (∀ p i, s.pcOf a.hart ≠ .paPid p i) ∨
      0 < s.currPid ∧ (∃ p i, s.pcOf a.hart = .paPid p i) ∧ s'.currPid = succPid s.currPid := by
    by_cases hpc : ∃ p i, s.pcOf a.hart = .paPid p i
    · obtain ⟨p, i, hpc⟩ := hpc
      have hne := hi.choice_ne_timer (l := .pid) hn (by simp [hpc])
      right
      refine ⟨?_, ⟨p, i, hpc⟩, ?_⟩
      · simpa [Counts, he, emit, hne, hpc] using hc
      · have hg : go s a.hart a.choice = some s' := by
          cases hch : a.choice <;> simp_all [next]
        simp only [go, hpc, Option.some.injEq] at hg
        rw [← hg, State.currPid_setPc]
    · refine .inl ⟨(currPid_step hs).resolve_right ?_, fun p i hp => hpc ⟨p, i, hp⟩⟩
      rintro ⟨p, i, hp, -⟩
      exact hpc ⟨p, i, hp⟩
  refine ⟨hp.counter_step hcount, hp.slot_issued_step hi hs hcount, hp.new_step hi hs hcount,
    hp.newUniq_step hi hs hcount, hp.uniq_step hi hs, hp.one_step hi hs, hp.alive_step hi hs,
    fun p => ?_⟩
  by_cases hu : s.cur a.hart = some p
  · exact hp.forks_self hi hs hu
  · exact hp.forks_other hi hs hu

end Pids

end Step

theorem pids_boot : Pids (boot n) fun _ => none := by
  have hpid : ∀ x : Slot, ((boot n).procs x).pid = if x.val = 0 then 1 else 0 := fun _ => rfl
  have hzero : ∀ x : Slot, x.val = 0 → x = 0 := fun x hx => Fin.ext hx
  refine ⟨.inr (by simp [boot]), fun x => ?_, ?_, ?_, fun x y => ?_, fun x => ?_, fun x => ?_,
    fun p => trivial⟩
  · rw [hpid]
    split <;> simp
  · exact fun p v hv => by cases hv
  · exact fun p p' v hv => by cases hv
  · rw [hpid, hpid]
    intro h0 he
    split_ifs at h0 he with hx hy
    · rw [hzero x hx, hzero y hy]
    · cases he
    all_goals exact absurd rfl h0
  · rw [hpid]
    intro h1
    split_ifs at h1 with hx
    · exact ⟨hzero x hx, rfl⟩
    · cases h1
  · rw [hpid]
    intro ha
    split_ifs with hx
    · decide
    · exact absurd (if_neg hx) ha.1

theorem pids_reachable {s : State n} {g : Slot → Option Slot}
    (hr : (((system n).restrict Counts).watch (fun _ => none) noteChild).Reachable (s, g)) :
    Pids s g := by
  refine hr.invariant (I := fun x => Pids x.1 x.2) ?_ ?_
  · rintro ⟨s, g⟩ ⟨rfl, rfl⟩
    exact pids_boot
  · rintro ⟨s, g⟩ a ⟨s', g'⟩ hr hp ⟨⟨hc, hs⟩, rfl⟩
    exact hp.step (inv_reachable hr.of_watch.of_restrict) hs hc

/-- **Live pids are unique, and `fork`'s result tells whether there is a child**, in every
run in which `curr_pid` does not overflow. -/
theorem pids_unique {s : State n} {g : Slot → Option Slot}
    (hr : (((system n).restrict Counts).watch (fun _ => none) noteChild).Reachable (s, g)) :
    PidsOk s g := by
  have hp := pids_reachable hr
  have hi := inv_reachable hr.of_watch.of_restrict
  refine ⟨fun q q' hq _ he => hp.uniq q q' (hp.alive q hq) he, fun q _ => hp.one q, ?_⟩
  intro h p v hpc
  have hw := hi.wf h
  rw [hpc] at hw
  have hu : s.cur h = some p := hw
  have hf := hp.forks p
  rw [← s.pcOf_some hu, hpc] at hf
  rcases hf with ⟨rfl, hg⟩ | ⟨hpos, hg⟩
  · simp [hg]
  · exact ⟨fun _ => Option.ne_none_iff_exists'.1 hg, fun _ => hpos⟩

/-- The first `fork` of `init` returns 2. -/
theorem pids_unique_forked : ∃ (s : State 1) (g : Slot → Option Slot),
    (((system 1).restrict Counts).watch (fun _ => none) noteChild).Reachable (s, g) ∧
      s.pcOf 0 = .sysret .fork 0 2 ∧ ∃ i, g 0 = some i := by
  have hrun : (runWhile Counts (boot 1) (goes 0 9 ++ [(0, .fork)] ++ goes 0 22)).map
      (·.pcOf 0) = some (.sysret .fork 0 2) := by
    decide +kernel
  obtain ⟨s, hs, hpc⟩ := Option.map_eq_some_iff.1 hrun
  obtain ⟨g, hr⟩ := (reachable_runWhile (.start rfl) hs).watch (fun _ => none) noteChild
  exact ⟨s, g, hr, hpc, ((pids_unique hr).fork 0 0 2 hpc).1 (by decide)⟩

/-- **A second process with pid 1.**  `init`'s forks fail until `allocpid` has come round to
1, and then one succeeds. -/
theorem pids_repeat : ∃ (s : State 1) (g : Slot → Option Slot),
    ((system 1).watch (fun _ => none) noteChild).Reachable (s, g) ∧ ¬PidsOk s g := by
  obtain ⟨b, hr₀⟩ := solo_reachable (2 ^ 32 - 1)
  have hrun : ∀ b, (run (solo .user (idle (2 ^ 32 - 1)) unlocked (enabled b) 1)
      ([(0, .fork)] ++ goes 0 22)).map (fun s => ((s.procs 0).state, (s.procs 0).pid,
        (s.procs 1).state, (s.procs 1).pid)) = some (.running, 1, .ready, 1) := by
    decide +kernel
  obtain ⟨s, hs, he⟩ := Option.map_eq_some_iff.1 (hrun b)
  simp only [Prod.mk.injEq] at he
  obtain ⟨h0, hp0, h1, hp1⟩ := he
  obtain ⟨g, hr⟩ := (reachable_run hr₀ hs).watch (fun _ => none) noteChild
  refine ⟨s, g, hr, fun hok => ?_⟩
  have := hok.unique 0 1 (by simp [h0, ProcState.Alive]) (by simp [h1, ProcState.Alive])
    (by rw [hp0, hp1])
  exact absurd this (by decide)

end Wl00.Sched
