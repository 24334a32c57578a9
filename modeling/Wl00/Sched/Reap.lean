import Wl00.Sched.History

/-!
# Every zombie is released once, by the right thread

The events of a run determine what the state it ends in knows (`History`): a
released slot is UNUSED, a zombie holds the status it passed to `kexit`, and a
process inside `wait` has done what its program point says.

* `reaps_run` — a process is released at most once, by its parent's `wait`, by its
  parent's `kexit` where there is no reaper, or by the scheduler where it has no
  parent; and `wait` returns what it has released.
-/

namespace Wl00.Sched

variable {n : Nat}

/-! ## What a thread is doing -/

namespace Pc

/-- The status of a `kexit` under way. -/
@[simp] def exiting : Pc → Option Int
  | .acq _ k | .rel _ k | .mm k | .trapYield _ k | .sret k | .wakeup _ _ k | .sched k
  | .schedRet _ k | .clockTick k | .wakeCheck _ _ k | .yieldSet _ k | .sleepSet _ _ _ k
  | .sleepWake _ _ k | .release _ _ k => exiting k
  | .exitScan _ st _ | .exitScanState _ st _ | .exitChildren _ st _ _ _ | .exitHand _ st _ _ _
  | .exitParent _ st | .exitParentArg _ st | .exitZombie _ st => some st
  | _ => none

/-- The parent whose `kexit` is about to release a zombie, and that zombie. -/
@[simp] def disowns : Pc → Option (Slot × Slot)
  | .acq _ k | .rel _ k | .mm k | .trapYield _ k | .sret k | .wakeup _ _ k | .sched k
  | .schedRet _ k | .clockTick k | .wakeCheck _ _ k | .yieldSet _ k => disowns k
  | .release q (.kexit p) _ => some (p, q)
  | _ => none

theorem frees_of_disowns {k : Pc} {p q : Slot} (hk : k.disowns = some (p, q)) :
    k.frees = some q := by
  induction k with
  | release i r k _ => cases r <;> simp_all
  | _ => simp_all

end Pc

/-- How far a call to `wait` has got. -/
inductive Phase where
  | none
  /-- Looking for a zombie. -/
  | scan (addr : Nat)
  /-- About to copy out the status of the zombie in slot `i`. -/
  | copy (addr : Nat) (i : Slot) (pid xstate : Int)
  /-- About to release the zombie in slot `i` and return `v`. -/
  | reap (i : Slot) (v : Int)
  /-- About to return `v`. -/
  | done (v : Int)

/-- The result that is left to return once slot `i` has been released. -/
@[simp] def Phase.release (i : Slot) : Phase → Phase
  | .done v => .reap i v
  | _ => .none

namespace Pc

@[simp] def phase : Pc → Phase
  | .acq _ k | .rel _ k | .mm k | .trapYield _ k | .sret k | .wakeup _ _ k | .sched k
  | .schedRet _ k | .clockTick k | .wakeCheck _ _ k | .yieldSet _ k | .sleepSet _ _ _ k
  | .sleepWake _ _ k => phase k
  | .release i (.wait _) k => (phase k).release i
  | .waitScan _ addr _ _ | .waitCheck _ addr _ => .scan addr
  | .waitCopyout _ addr i pid x => .copy addr i pid x
  | .sysret .wait _ v => .done v
  | _ => .none

end Pc

/-- What a call to `wait` that returns `v` has done. -/
def Call.Returns (c : Call) (v : Int) : Prop :=
  (v = -1 ∧ c.freed = []) ∨
    (v ≠ -1 ∧ ∃ q st, c.freed = [(q, v, some st)] ∧ (c.addr ≠ 0 → c.stored = [(c.addr, st)]))

/-- What a call to `wait` has done in each phase. -/
def CallOk (procs : Slot → Proc) (c : Option Call) : Phase → Prop
  | .none => True
  | .scan addr => c = some ⟨addr, [], []⟩
  | .copy addr i pid x =>
      c = some ⟨addr, [], []⟩ ∧ addr ≠ 0 ∧ pid = (procs i).pid ∧ x = (procs i).xstate
  | .reap i v => v = (procs i).pid ∧
      ∃ addr, c = some ⟨addr, [], if addr = 0 then [] else [(addr, (procs i).xstate)]⟩
  | .done v => ∃ c', c = some c' ∧ c'.Returns v

/-- What the events of a run, newest first, have to do with the state it ends in. -/
structure History (l : List Event) (s : State n) : Prop where
  freed : ∀ q, freed q l = true → (s.procs q).state = .unused
  zombie : ∀ q, (s.procs q).state = .zombie → lastExit q l = some (s.procs q).xstate
  exiting : ∀ p st, (s.procs p).state.Alive → (s.tpc p).exiting = some st →
    lastExit p l = some st
  hand : ∀ h p q, (s.pcOf h).disowns = some (p, q) → lastHand q l = some (p, some p, none)
  call : ∀ p, (s.procs p).state.Alive → CallOk s.procs (call p l) (s.tpc p).phase

/-! ## One step -/

section Step

variable {s s' : State n} {h : Fin n} {c : Choice} {l : List Event}

theorem Inv.running_of_plain (hi : Inv s) {p : Slot} (hu : s.cur h = some p)
    (hp : (s.pcOf h).plain) : (s.procs p).state = .running := by
  rw [s.pcOf_some hu] at hp
  exact (hi.on h p hu).1.1 hp

/-- A thread that comes alive is at `forkret`. -/
theorem alive_of_step (hi : Inv s) (hs : Step s h s') {p : Slot}
    (ha : (s'.procs p).state.Alive) : (s.procs p).state.Alive ∨ s.tpc p = .forkret p := by
  rcases hi.proc_step hs p with he | hu | ⟨-, hr, -⟩
  · exact .inl (he ▸ ha)
  · have hw := hi.wf h
    have hrun := fun p hp => hi.running_of_plain (h := h) (p := p) hp
    have hc := fun b hb => hi.claim_own (h := h) (i := p) (b := b) hb
    generalize s.pcOf h = pc at hu hw hrun hc
    generalize s'.procs p = x at hu ha
    generalize s'.pcOf h = k at hu
    cases hu with
    | publish => exact .inr ((hc true rfl).2.1 rfl)
    | wake _ _ _ _ hst => exact .inl (by simp [hst, ProcState.Alive])
    | claim | release => simp [ProcState.Alive, releaseproc] at ha
    | handNone | handRelease | hand | handZombie | setPid | awake => exact .inl ha
    | yield _ k => exact .inl (by simp [hrun p hw.2.2.1 rfl, ProcState.Alive])
    | sleep _ c lk k => exact .inl (by simp [hrun p hw.1 rfl, ProcState.Alive])
    | zombie _ st => exact .inl (by simp [hrun p hw rfl, ProcState.Alive])
  · exact .inl (by simp [hr, ProcState.Alive])

theorem freed_step (hi : Inv s) (hh : History l s) (hn : next s h c = some s')
    {q : Slot} (hq : freed q (emit s h c :: l) = true) : (s'.procs q).state = .unused := by
  by_cases hr : ∃ r v, emit s h c = .release q r v
  · obtain ⟨r, v, hr⟩ := hr
    exact state_of_release hi hn hr
  by_cases hc : emit s h c = .claim q
  · simp [hc, freed] at hq
  push Not at hr
  rw [freed_cons hc hr] at hq
  have hold := hh.freed q hq
  have he := emit_eq hi hn
  rcases hi.proc_step (next_step hn) q with heq | hu | ⟨-, hst, -⟩
  · rwa [heq]
  · have hw := hi.wf h
    have hrun := fun p hp => hi.running_of_plain (h := h) (p := p) hp
    have hcl := fun b hb => (hi.claim_own (h := h) (i := q) (b := b) hb).1
    rw [he] at hc
    generalize s.pcOf h = pc at hu hw hrun hcl hc
    generalize s'.procs q = x at hu ⊢
    generalize s'.pcOf h = k at hu hc
    cases hu with
    | release => rfl
    | claim => exact absurd rfl hc
    | wake _ _ _ _ hst => simp [hold] at hst
    | setPid | handNone | handRelease | hand | handZombie | awake => exact hold
    | publish => simp [hold] at hcl
    | yield _ k => simp [hrun q hw.2.2.1 rfl] at hold
    | sleep _ c lk k => simp [hrun q hw.1 rfl] at hold
    | zombie _ st => simp [hrun q hw rfl] at hold
  · simp [hold] at hst

theorem History.exiting_of_cur (hh : History l s) (hi : Inv s) {p : Slot} {st : Int}
    (hp : s.cur h = some p) (hx : (s.pcOf h).exiting = some st) : lastExit p l = some st :=
  hh.exiting p st (hi.on h p hp).2 (by rwa [s.pcOf_some hp] at hx)

/-- A zombie neither exits nor is taken. -/
theorem lastExit_zombie (hi : Inv s) {q : Slot} (hz : (s.procs q).state = .zombie) :
    lastExit q (emit s h c :: l) = lastExit q l := by
  refine lastExit_cons (fun hc => ?_) fun st hx => ?_
  · have := (emit_claim hc).2.2
    simp [hz] at this
  · obtain ⟨hu, hc⟩ := emit_exit hx
    have := hi.running_of_plain (hi.cur_of_user hu hc) (by rw [hu]; rfl)
    simp [hz] at this

theorem zombie_step (hi : Inv s) (hh : History l s) (hn : next s h c = some s') {q : Slot}
    (hz : (s'.procs q).state = .zombie) :
    lastExit q (emit s h c :: l) = some (s'.procs q).xstate := by
  have hkeep : (s.procs q).state = .zombie → (s'.procs q).xstate = (s.procs q).xstate →
      lastExit q (emit s h c :: l) = some (s'.procs q).xstate := by
    intro hz hx
    rw [lastExit_zombie hi hz, hh.zombie q hz, hx]
  have he := emit_eq hi hn
  rcases hi.proc_step (next_step hn) q with heq | hu | ⟨-, -, heq⟩
  · exact hkeep (heq ▸ hz) (by rw [heq])
  · have hw := hi.wf h
    have hex := fun st hp hx => @History.exiting_of_cur _ s h l hh hi q st hp hx
    generalize s.pcOf h = pc at hu hw he hex
    generalize s'.procs q = x at hu hz hkeep ⊢
    generalize s'.pcOf h = k at hu he
    cases hu with
    | handNone | handRelease | hand | handZombie | setPid | awake => exact hkeep hz rfl
    | zombie _ st =>
        rw [he]
        exact hex st hw rfl
    | _ => simp [releaseproc] at hz
  · simp [heq] at hz

/-- A step of a process, seen from its own stack. -/
theorem Inv.thread_step (hi : Inv s) (hn : next s h c = some s') {p : Slot}
    (hu : s.cur h = some p) :
    ThreadMove s h (s.tpc p) s'.procs (s'.tpc p) ∧ emit s h c = eventOf s (s.tpc p) (s'.tpc p) := by
  have hs := next_step hn
  by_cases hc : s'.cur h = some p
  · have hw := hi.wf h
    have hw' := (step_inv hi hs).wf h
    have he := emit_eq hi hn
    obtain ⟨pc, procs, k, hpc, hprocs, hk, hm⟩ := hi.move hs
    rw [hu, hpc] at hw
    rw [hc, hk] at hw'
    rw [s.pcOf_some hu] at hpc he
    rw [s'.pcOf_some hc] at hk he
    refine ⟨?_, he⟩
    rw [hpc, hk, hprocs]
    exact hm.thread hw hw'
  · cases hs with
    | @leave q k hl hq hr =>
        obtain rfl : p = q := Option.some.inj ((hi.cur h p hu).2.symm.trans hq)
        have hl' := hl
        rw [s.pcOf_some hu] at hl'
        refine ⟨by simpa using ThreadMove.leave (s.cpus h).intena hl', ?_⟩
        unfold emit
        rcases hl with hp | ⟨p', hp, -⟩
        all_goals
          rw [s.pcOf_some hu] at hp
          simp [s.pcOf_some hu, hp, eventOf]
    | @enter i hp =>
        have := Inv.cur_eq_none hi.toRunInv hp fun _ => id
        rw [hu] at this
        cases this
    | _ => exact absurd (by simpa [State.setCpu, State.setLock, State.setProc, State.setCproc]) hc

theorem ThreadMove.exiting {pc k : Pc} {procs : Slot → Proc} {p : Slot} {st : Int}
    (hm : ThreadMove s h pc procs k) (hw : k.Wf (some p)) (hx : k.exiting = some st) :
    pc.exiting = some st ∨ pc = .user ∧ eventOf s pc k = .exit p st := by
  cases hm with
  | silent hk =>
      cases hk
      case timerUser | timerKernel =>
        unfold clockintr at hx
        split at hx <;> simp_all
      case exit p' st' _ =>
        obtain rfl : p = p' := by simpa using hw.1.1
        obtain rfl : st' = st := by simpa using hx
        exact .inr ⟨rfl, rfl⟩
      all_goals simp_all [failFork, reap]
  | update i q hu =>
      left
      cases hu <;> first | exact hx | cases hx
  | acq l k | rel l k => exact .inl hx
  | alloc p i => cases hx
  | leave ia hl =>
      rcases hl with rfl | ⟨p, rfl, rfl⟩
      · exact .inl hx
      · cases hx

theorem exiting_step (hi : Inv s) (hh : History l s) (hn : next s h c = some s') {p : Slot}
    {st : Int} (ha : (s'.procs p).state.Alive) (hx : (s'.tpc p).exiting = some st) :
    lastExit p (emit s h c :: l) = some st := by
  have hs := next_step hn
  have hcl : (s.procs p).state.Alive → emit s h c ≠ .claim p := fun ha hc =>
    ha.1 (emit_claim hc).2.2
  by_cases hu : s.cur h = some p
  · have hap := (hi.on h p hu).2
    obtain ⟨hm, he⟩ := hi.thread_step hn hu
    rcases hm.exiting ((step_inv hi hs).wfT p ha) hx with hx | ⟨-, he'⟩
    · rw [lastExit_cons (hcl hap), hh.exiting p st hap hx]
      intro st' he'
      obtain ⟨hp, -⟩ := emit_exit he'
      rw [s.pcOf_some hu] at hp
      simp [hp] at hx
    · simp [he, he', lastExit]
  · have hold : s.tpc p = s'.tpc p := by
      rcases hi.tpc_step hs p with he | ⟨hu', -⟩ | ⟨-, he⟩
      · exact he.symm
      · exact absurd hu' hu
      · simp [he] at hx
    rw [← hold] at hx
    rcases alive_of_step hi hs ha with hap | hf
    · rw [lastExit_cons (hcl hap), hh.exiting p st hap hx]
      intro st' he'
      obtain ⟨hp, hc⟩ := emit_exit he'
      exact hu (hi.cur_of_user hp hc)
    · simp [hf] at hx

theorem Move.disowns {pc k : Pc} {procs : Slot → Proc} {p q : Slot} {t : Option Slot}
    (hm : Move s h pc procs k) (hw : pc.Wf t) (hd : k.disowns = some (p, q)) :
    pc.disowns = some (p, q) ∨ ∃ st g, pc = .exitHand p st none q g := by
  cases hm with
  | silent hk =>
      left
      cases hk
      case timerUser | timerKernel =>
        unfold clockintr at hd
        split at hd <;> simp_all
      all_goals exact hd
  | update hu =>
      cases hu with
      | handRelease p' st i g _ =>
          cases hd
          exact .inr ⟨st, g, rfl⟩
      | release i r k _ =>
          have := Pc.frees_of_disowns hd
          rw [hw.2.spec.2.2.2.2.2.1] at this
          cases this
      | awake p' lk k =>
          obtain ⟨-, c, hs⟩ := hw
          have := Pc.frees_of_disowns hd
          rw [Pc.frees, Pc.frees, hs.frees] at this
          cases this
      | _ => exact .inl hd
  | acq l k | rel l k => exact .inl hd
  | enter i hwf hres =>
      have := Pc.frees_of_disowns hd
      rw [hres.frees hwf] at this
      cases this
  | alloc | dispatch | leave | back => cases hd

theorem hand_step (hi : Inv s) (hf : Family s) (hh : History l s) (hn : next s h c = some s')
    {h' : Fin n} {p q : Slot} (hd : (s'.pcOf h').disowns = some (p, q)) :
    lastHand q (emit s h c :: l) = some (p, some p, none) := by
  have hs := next_step hn
  -- a zombie about to be released is not taken
  have hkeep : ∀ h₁, (s.pcOf h₁).disowns = some (p, q) →
      (∀ p' old new, emit s h c ≠ .hand p' q old new) →
      lastHand q (emit s h c :: l) = some (p, some p, none) := by
    intro h₁ hd hne
    rw [lastHand_cons ?_ hne, hh.hand h₁ p q hd]
    intro hc
    have hz := hi.frees h₁ q (Pc.frees_of_disowns hd)
    have := (emit_claim hc).2.2
    simp [hz] at this
  by_cases hhh : h' = h
  · subst hhh
    have hw := hi.wf h'
    have he := emit_eq hi hn
    obtain ⟨pc, procs, k, hpc, -, hk, hm⟩ := hi.move hs
    rw [hk] at hd
    rw [hpc] at hw
    rcases hm.disowns hw hd with hd | ⟨st, g, rfl⟩
    · refine hkeep h' (hpc ▸ hd) fun p' old new he => ?_
      obtain ⟨st, g, hp⟩ := emit_hand he
      rw [← hpc, hp] at hd
      cases hd
    · rw [he, hpc]
      simp [eventOf, lastHand, hf.child h' q p (by simp [hpc])]
  · rw [hi.pcOf_step hs hhh] at hd
    refine hkeep h' hd fun p' old new he => ?_
    obtain ⟨st, g, hp⟩ := emit_hand he
    refine hhh (hi.lock_inj (Pc.mem_locks_of_frees (hi.wf h') (Pc.frees_of_disowns hd)) ?_)
    simp [hp]

/-! ## A call to `wait` -/

theorem CallOk.congr {procs procs' : Slot → Proc} {o : Option Call} {f : Phase}
    (ho : CallOk procs o f) (hp : ∀ i, (procs' i).pid = (procs i).pid)
    (hx : ∀ i, (procs' i).xstate = (procs i).xstate) : CallOk procs' o f := by
  cases f with
  | copy | reap => simpa only [CallOk, hp, hx] using ho
  | none | scan | done => exact ho

/-- The zombie that a call to `wait` is busy with. -/
def Phase.zombie : Phase → Option Slot
  | .copy _ i _ _ | .reap i _ => some i
  | _ => .none

theorem Pc.frees_of_phase {k : Pc} {i : Slot} (hk : k.phase.zombie = some i) :
    k.frees = some i := by
  induction k with
  | release q r k ih =>
      cases r with
      | wait p =>
          rw [phase] at hk
          cases hf : k.phase with
          | done v => rw [hf] at hk; cases hk; rfl
          | _ => rw [hf] at hk; cases hk
      | _ => cases hk
  | sysret y p v => cases y <;> cases hk
  | waitCopyout p addr q pid x => cases hk; rfl
  | _ => first | cases hk | (rename_i ih; exact ih hk)

theorem Pc.phase_of_doomed {k : Pc} (hk : k.doomed = true) : k.phase = .none := by
  induction k with
  | release q r k ih =>
      cases r with
      | wait p => rw [phase, ih hk]; rfl
      | _ => rfl
  | _ => first | rfl | cases hk | (rename_i ih; exact ih hk)

/-- A process busy with a zombie in `wait` is on a hart. -/
theorem Inv.on_hart (hi : Inv s) {p i : Slot} (ha : (s.procs p).state.Alive)
    (hk : (s.tpc p).phase.zombie = some i) : ∃ h, s.cur h = some p := by
  have hres : ¬(s.tpc p).Resumable p := by
    intro hres
    have := Pc.frees_of_phase hk
    rw [hres.frees (hi.wfT p ha)] at this
    cases this
  cases hst : (s.procs p).state with
  | unused => exact absurd hst ha.1
  | new => exact absurd hst ha.2
  | ready => exact (hi.off p (.inl hst)).resolve_right hres
  | waiting => exact (hi.off p (.inr hst)).resolve_right hres
  | zombie =>
      rw [Pc.phase_of_doomed ((hi.doomed p ha).2 hst)] at hk
      cases hk
  | running =>
      obtain ⟨h, hc⟩ := hi.running p hst
      refine ⟨h, ?_⟩
      cases hu : s.cur h with
      | some q => rw [← (hi.cur h q hu).2, hc]
      | none =>
          rcases (hi.cproc h p hu).1 hc with hs | hs
          · exact absurd (hi.swtch h p hu hs).2 hres
          · exact absurd hst (hi.back h p hu hs).1

/-- The slot that a call to `wait` is busy with is left alone by everyone else. -/
theorem CallOk.other {o : Option Call} {p : Slot} (hi : Inv s) (hs : Step s h s')
    (hu : s.cur h ≠ some p) (ha : (s.procs p).state.Alive)
    (ho : CallOk s.procs o (s.tpc p).phase) : CallOk s'.procs o (s.tpc p).phase := by
  have hslot : ∀ i, (s.tpc p).phase.zombie = some i → s'.procs i = s.procs i := by
    intro i hk
    obtain ⟨h', hu'⟩ := hi.on_hart ha hk
    have hfr : (s.pcOf h').frees = some i := by
      rw [s.pcOf_some hu']
      exact Pc.frees_of_phase hk
    have hne : h' ≠ h := fun he => hu (he ▸ hu')
    rcases hi.slot_step hs fun hl =>
      hne (hi.lock_inj (Pc.mem_locks_of_frees (hi.wf h') hfr) hl) with he | ⟨hst, -⟩
    · exact he
    · rw [hi.frees h' i hfr] at hst
      cases hst
  cases hf : (s.tpc p).phase with
  | copy addr i pid x | reap i v =>
      rw [hf] at ho hslot
      simpa only [CallOk, hslot i rfl] using ho
  | none | scan | done => rw [hf] at ho; exact ho

/-- A call to `wait` goes on as the process makes a silent move. -/
theorem Silent.callOk {pc k : Pc} {p : Slot} (hk : Silent s h pc k) (hw : pc.Wf (some p))
    (hc : s.cproc h = some p) (hl : (s.cpus h).sie = true → pc.locks = ∅)
    (ho : CallOk s.procs (call p l) pc.phase) :
    CallOk s.procs (call p (eventOf s pc k :: l)) k.phase := by
  cases hk
  case timerUser =>
    unfold clockintr
    split <;> trivial
  case timerKernel hs hp =>
    rw [eventOf_timer hw (hl hs) hp]
    unfold clockintr
    split <;> exact ho
  case wait q addr hq =>
    obtain rfl : p = q := Option.some.inj (hc.symm.trans hq)
    simp [eventOf, call, CallOk]
  case waitScanNone addr i _ =>
    exact ⟨_, ho, .inl ⟨rfl, rfl⟩⟩
  case waitCheckCopy addr i _ hne => exact ⟨ho, hne, rfl, rfl⟩
  case waitCheckReap i _ => exact ⟨rfl, 0, ho⟩
  case waitCopyFail addr i pid x => exact ⟨_, ho.1, .inl ⟨rfl, rfl⟩⟩
  case waitCopy q addr i pid x =>
    obtain rfl : p = q := by simpa using hw
    obtain ⟨hcall, hne, rfl, rfl⟩ := ho
    refine ⟨rfl, addr, ?_⟩
    simp [eventOf, reap, call, hcall, hne]
  all_goals first | exact ho | trivial

/-- A call to `wait` goes on as the process changes a slot: when it releases the
zombie it has found, it has released what it is going to return. -/
theorem Update.callOk {pc k : Pc} {p i : Slot} {q : Proc} (hu : Update s h pc i q k)
    (hw : pc.Wf (some p)) (hx : ∀ j, pc.frees = some j →
      lastExit j l = some (s.procs j).xstate ∧ (s.procs j).pid ≠ -1)
    (ho : CallOk s.procs (call p l) pc.phase) :
    CallOk (Function.update s.procs i q) (call p (eventOf s pc k :: l)) k.phase := by
  have hsame : q.pid = (s.procs i).pid → q.xstate = (s.procs i).xstate →
      ∀ {o f}, CallOk s.procs o f → CallOk (Function.update s.procs i q) o f := by
    intro hp hx o f ho
    refine ho.congr (fun j => ?_) fun j => ?_
    all_goals
      by_cases hj : j = i
      · subst hj; simpa
      · simp [hj]
  cases hu with
  | release _ r k _ =>
      cases r with
      | wait p' =>
          obtain ⟨hp, v, rfl⟩ := hw
          obtain rfl : p' = p := Option.some.inj hp
          obtain ⟨rfl, addr, hcall⟩ := ho
          obtain ⟨hst, hne⟩ := hx i rfl
          refine ⟨_, by simp [eventOf, call, hcall]; rfl, .inr ⟨hne, i, _, by simp [hst]; rfl, ?_⟩⟩
          intro ha
          simp_all
      | kexit p' => obtain ⟨-, st, g, rfl⟩ := hw; trivial
      | sched => obtain ⟨-, rfl⟩ := hw; trivial
      | fail p' => obtain ⟨-, rfl⟩ := hw; trivial
  | setPid | zombie => trivial
  | wake | yield | sleep | awake => exact hsame rfl rfl ho
  | _ => trivial

/-- A call to `wait` goes on with every step of its process. -/
theorem ThreadMove.callOk {pc k : Pc} {procs : Slot → Proc} {p : Slot}
    (hm : ThreadMove s h pc procs k) (hw : pc.Wf (some p)) (hc : s.cproc h = some p)
    (hl : (s.cpus h).sie = true → pc.locks = ∅)
    (hx : ∀ j, pc.frees = some j → lastExit j l = some (s.procs j).xstate ∧ (s.procs j).pid ≠ -1)
    (ho : CallOk s.procs (call p l) pc.phase) :
    CallOk procs (call p (eventOf s pc k :: l)) k.phase := by
  cases hm with
  | silent hk => exact hk.callOk hw hc hl ho
  | update i q hu => exact hu.callOk hw hx ho
  | acq l k | rel l k => exact ho
  | alloc p' i => trivial
  | leave ia hl =>
      rcases hl with rfl | ⟨p', rfl, rfl⟩
      · exact ho
      · trivial

theorem call_step (hi : Inv s) (hf : Fresh s) (hh : History l s) (hn : next s h c = some s')
    {p : Slot} (ha : (s'.procs p).state.Alive) :
    CallOk s'.procs (call p (emit s h c :: l)) (s'.tpc p).phase := by
  have hs := next_step hn
  by_cases hu : s.cur h = some p
  · obtain ⟨hm, he⟩ := hi.thread_step hn hu
    have hw := hi.wf h
    rw [hu, s.pcOf_some hu] at hw
    rw [he]
    refine hm.callOk hw (hi.cur h p hu).2 (fun hsie => ?_) (fun j hj => ?_)
      (hh.call p (hi.on h p hu).2)
    · rw [← s.pcOf_some hu]
      exact hi.locks_eq_empty hsie
    · rw [← s.pcOf_some hu] at hj
      exact ⟨hh.zombie j (hi.frees h j hj), hf.pid j⟩
  · have hev : ¬(emit s h c).OfCall p := fun he => hu (hi.cur_of_ofCall he)
    rw [call_cons hev]
    rcases hi.tpc_step hs p with he | ⟨hu', -⟩ | ⟨-, he⟩
    · rw [he]
      rcases alive_of_step hi hs ha with hap | hfr
      · exact (hh.call p hap).other hi hs hu hap
      · rw [hfr]
        trivial
    · exact absurd hu' hu
    · rw [he]
      trivial

/-- **Every step keeps the history true.** -/
theorem history_step (hi : Inv s) (hfam : Family s) (hf : Fresh s) (hh : History l s)
    (hn : next s h c = some s') : History (emit s h c :: l) s' :=
  ⟨fun _ => freed_step hi hh hn, fun _ => zombie_step hi hh hn,
    fun _ _ => exiting_step hi hh hn, fun _ _ _ => hand_step hi hfam hh hn,
    fun _ => call_step hi hf hh hn⟩

end Step

theorem history_boot : History [] (boot n) := by
  refine ⟨?_, ?_, ?_, ?_, ?_⟩
  · simp [freed]
  · intro q hz
    simp only [boot] at hz
    split at hz <;> cases hz
  · simp [boot]
  · simp [boot, State.pcOf]
  · intro p _
    trivial

/-- The events of a run, newest first. -/
def events (tr : List (Label n)) : List Event := tr.map Label.event

theorem history_run {tr : List (Label n)} {s : State n}
    (hr : ((system n).restrict NoWrap).Run tr s) : History (events tr) s := by
  refine hr.invariant (I := fun tr s => History (events tr) s) ?_ ?_
  · rintro _ rfl
    exact history_boot
  · rintro tr s a s' hr hh ⟨-, hn, he⟩
    have hreach : (system n).Reachable s := ⟨tr, hr.of_restrict⟩
    have := history_step (inv_reachable hreach) (family_reachable hreach)
      (fresh_reachable ⟨tr, hr⟩) hh hn
    rwa [← he] at this

/-! ## The life of a zombie -/

/-- Between two releases of a slot it is taken. -/
def ReleasedOnce (l : List Event) : Prop :=
  ∀ q r v r' v' l₁ l₂ l₃,
    l = l₁ ++ Event.release q r v :: (l₂ ++ .release q r' v' :: l₃) → .claim q ∈ l₂

/-- `r` may release slot `q`, after the events `l`: `wait` of its parent; `kexit` of the
process that was its parent until then, if no other live process has pid 1; or the
scheduler, if it has no parent.  What a failing `fork` releases has never run. -/
def MayRelease (l : List Event) (s : State n) (q : Slot) : Releaser → Prop
  | .wait p => (s.procs q).state = .zombie ∧ (s.procs q).parent = some p
  | .kexit p => (s.procs q).state = .zombie ∧ lastHand q l = some (p, some p, none) ∧
      ∀ x, NoInit s p x
  | .sched => (s.procs q).state = .zombie ∧ (s.procs q).parent = none
  | .fail _ => (s.procs q).state = .new

/-- What holds after the events `l`, in the state `s` they lead to. -/
structure Reaps (l : List Event) (s : State n) : Prop where
  once : ReleasedOnce l
  attended : ∀ q, (s.procs q).state = .zombie → s.locks (.proc q) = none →
    (s.procs q).parent ≠ none
  releaser : ∀ h c s' q r v, next s h c = some s' → emit s h c = .release q r v →
    MayRelease l s q r
  returns : ∀ h c s' p v, next s h c = some s' → emit s h c = .ret .wait p v →
    ∃ w, call p l = some w ∧ w.Returns v

theorem Inv.mayRelease {l : List Event} {s : State n} {h : Fin n} (hi : Inv s) (hfam : Family s)
    (hf : Fresh s) (hh : History l s) {q : Slot} {r : Releaser} {k : Pc}
    (hp : s.pcOf h = .release q r k) : MayRelease l s q r := by
  have hw := hi.wf h
  have hz := hi.frees h q
  have hc := hfam.child h q
  have ho := hfam.orphan h q
  have hd := hh.hand h
  have hb := hf.barren h
  have hcl := fun b hb => (hi.claim_own (h := h) (i := q) (b := b) hb).1
  rw [hp] at hw hz hc ho hd hb hcl
  cases r with
  | wait p => exact ⟨hz rfl, hc p rfl⟩
  | kexit p =>
      obtain ⟨-, st, g, rfl⟩ := hw
      exact ⟨hz rfl, hd p q rfl, hb (by simp) rfl⟩
  | sched => exact ⟨hz rfl, ho rfl⟩
  | fail p => exact hcl false rfl

/-- A slot that may be released has not been since it was taken. -/
theorem MayRelease.freed_eq_false {l : List Event} {s : State n} {q : Slot} {r : Releaser}
    (hm : MayRelease l s q r) (hh : History l s) : freed q l = false := by
  rw [Bool.eq_false_iff]
  intro hf
  have hst := hh.freed q hf
  cases r with
  | wait p | kexit p | sched => exact absurd (hst.symm.trans hm.1) (by decide)
  | fail p => exact absurd (hst.symm.trans hm) (by decide)

theorem releasedOnce_cons {e : Event} {l : List Event} (ho : ReleasedOnce l)
    (he : ∀ q r v, e = .release q r v → freed q l = false) : ReleasedOnce (e :: l) := by
  rintro q r v r' v' (- | ⟨e', l₁⟩) l₂ l₃ hl
  · obtain ⟨rfl, rfl⟩ := List.cons.inj hl
    exact claim_mem_of_freed (he q r v rfl)
  · obtain ⟨-, hl⟩ := List.cons.inj hl
    exact ho q r v r' v' l₁ l₂ l₃ hl

theorem releasedOnce_run {tr : List (Label n)} {s : State n}
    (hr : ((system n).restrict NoWrap).Run tr s) : ReleasedOnce (events tr) := by
  refine hr.invariant (I := fun tr _ => ReleasedOnce (events tr)) ?_ ?_
  · rintro _ _ q r v r' v' l₁ l₂ l₃ hl
    simp [events] at hl
  · rintro tr s a s' hr ho ⟨-, hn, he⟩
    refine releasedOnce_cons ho fun q r v hrel => ?_
    rw [he] at hrel
    obtain ⟨-, -, ⟨k, hp⟩, -⟩ := emit_release hrel
    have hreach : (system n).Reachable s := ⟨tr, hr.of_restrict⟩
    have hh := history_run hr
    exact ((inv_reachable hreach).mayRelease (family_reachable hreach)
      (fresh_reachable ⟨tr, hr⟩) hh hp).freed_eq_false hh

/-- **No exited process is released twice or left without a releaser**, in every run
in which `allocpid` does not come round to -1: a process that has become a zombie
is released at most once, by the one thread that may; a zombie whose lock is free
has a parent; and `wait` returns the pid of the one child it has released, having
stored the status that child passed to `kexit`, or -1, having released nothing. -/
theorem zombies_reaped (tr : List (Label n)) (s : State n)
    (hr : ((system n).restrict NoWrap).Run tr s) : Reaps (events tr) s := by
  have hreach : (system n).Reachable s := ⟨tr, hr.of_restrict⟩
  have hi := inv_reachable hreach
  have hh := history_run hr
  refine ⟨releasedOnce_run hr, ?_, ?_, ?_⟩
  · intro q hz hl hp
    obtain ⟨h, ha⟩ := attended_reachable hreach q hz hp
    have := (hi.lock h _).2 (ha.mem_locks (hi.wf h))
    rw [hl] at this
    cases this
  · intro h c s' q r v _ he
    obtain ⟨-, -, ⟨k, hp⟩, -⟩ := emit_release he
    exact hi.mayRelease (family_reachable hreach) (fresh_reachable ⟨tr, hr⟩) hh hp
  · intro h c s' p v _ he
    have hp := emit_ret he
    have hw := hi.wf h
    rw [hp] at hw
    have hu : s.cur h = some p := hw
    rw [s.pcOf_some hu] at hp
    have := hh.call p (hi.on h p hu).2
    rwa [hp] at this

/-- `init` forks and waits, and its child exits with status 7: `wait` is about to
return the child's pid. -/
theorem zombies_reaped_wait : ∃ tr, ∃ s : State 1, ((system 1).restrict NoWrap).Run tr s ∧
    s.pcOf 0 = .sysret .wait 0 2 ∧ ∃ w, call 0 (events tr) = some w ∧ w.Returns 2 := by
  have hrun : (runWhile NoWrap (boot 1)
      (goes 0 9 ++ [(0, .fork)] ++ goes 0 24 ++ [(0, .wait 4096)] ++ goes 0 51 ++
        [(0, .exit 7)] ++ goes 0 314)).map (fun s => s.pcOf 0) = some (.sysret .wait 0 2) := by
    decide +kernel
  obtain ⟨s, hs, hp⟩ := Option.map_eq_some_iff.1 hrun
  obtain ⟨tr, hr⟩ := reachable_runWhile (.start rfl) hs
  exact ⟨tr, s, hr, hp, (zombies_reaped tr s hr).returns 0 .go _ 0 2 (by simp [next, go, hp]; rfl)
    (by simp [emit, hp])⟩

end Wl00.Sched
