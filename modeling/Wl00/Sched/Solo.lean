import Wl00.Sched.Progress

/-!
# System calls without interference

What does `fork`, `wait` or `exit` do to `proctable` when nobody else is in the kernel?  The
answer is stated in terms of the table alone, as one change for each call, and the steps of
`Wl00.Sched` are shown to add up to it.

* `Effect` — what a call does to the table, and what it returns.
* `Alone`, `Solo` — one hart makes steps and the others hold no locks.
* `solo_call` — whatever `Effect` allows, the steps of the hart can bring about.
-/

namespace Wl00.Sched

variable {n : Nat}

/-! ## The table -/

/-- What the functions of `proc.c` read of a slot. -/
structure Row where
  pid : Int
  state : ProcState
  chan : Option Chan
  parent : Option Slot
  xstate : Int
  deriving DecidableEq

/-- A slot after `releaseproc`. -/
def Row.reset : Row := ⟨0, .unused, none, none, 0⟩

/-- What `wakeup(c)` does to a slot. -/
def Row.wake (c : Option Chan) (r : Row) : Row :=
  if r.chan = c ∧ r.state = .waiting then { r with state := .ready } else r

/-- What `kexit` does to the slot of a child: it goes to the reaper, and a zombie that nobody
will reap is released. -/
def Row.hand (reaper : Option Slot) (r : Row) : Row :=
  if r.state = .zombie ∧ reaper = none then Row.reset else { r with parent := reaper }

/-- `proctable` -/
abbrev Table := Slot → Row

/-- Slot `i` is the first that meets `P`. -/
def IsFirst (P : Slot → Prop) (i : Slot) : Prop := P i ∧ ∀ j < i, ¬P j

namespace Table

variable (T : Table) (p : Slot)

/-- `q` is a child of `p`. -/
def Child (q : Slot) : Prop := (T q).parent = some p

/-- `q` is a child of `p` that has exited. -/
def Dead (q : Slot) : Prop := T.Child p q ∧ (T q).state = .zombie

instance : DecidablePred (T.Child p) := fun q => inferInstanceAs (Decidable ((T q).parent = some p))

instance : DecidablePred (T.Dead p) := fun _ => inferInstanceAs (Decidable (_ ∧ _))

/-- Who takes the children of `p`. -/
def Reaper (q : Slot) : Prop := (T q).pid = 1 ∧ q ≠ p ∧ (T q).state ≠ .zombie

instance : DecidablePred (T.Reaper p) := fun _ => inferInstanceAs (Decidable (_ ∧ _ ∧ _))

/-- The children in the first `i` slots have been handed over. -/
def handed (reaper : Option Slot) (i : Nat) : Table := fun q =>
  if q < i ∧ T.Child p q then (T q).hand reaper else T q

/-- The first `i` slots have been woken up. -/
def woken (c : Option Chan) (i : Nat) : Table := fun q => if q < i then (T q).wake c else T q

/-- `kexit` of `p`, whose children go to `reaper`. -/
def exit (status : Int) (reaper : Option Slot) : Table :=
  let T₁ := T.handed p reaper NPROC
  let T₂ := if reaper ≠ none ∧ ∃ q, T.Dead p q then T₁.woken (reaper.map .proc) NPROC else T₁
  let T₃ := if (T₂ p).parent = none then T₂ else T₂.woken ((T₂ p).parent.map .proc) NPROC
  Function.update T₃ p { T₃ p with xstate := status, state := .zombie }

end Table

/-- The calls that change `proctable`. -/
inductive ProcCall where
  | fork
  | wait (addr : Nat)
  | exit (status : Int)

/-- A call of the process in slot `p`, with the table `T` and `curr_pid` before and after it.
`none` is returned by a call that does not come back: the process sleeps or has exited. -/
inductive Effect (p : Slot) (T : Table) (v : Int) : ProcCall → Option Int → Table → Int → Prop
  /-- There is no slot. -/
  | forkFull : (∀ i, (T i).state ≠ .unused) → Effect p T v .fork (some (-1)) T v
  /-- There is no memory. -/
  | forkFail (i) : IsFirst (fun i => (T i).state = .unused) i →
      Effect p T v .fork (some (-1)) (Function.update T i .reset) (succPid v)
  | fork (i) : IsFirst (fun i => (T i).state = .unused) i → Effect p T v .fork (some v)
      (Function.update T i { T i with pid := v, parent := some p, state := .ready }) (succPid v)
  | waitNone (addr) : (∀ q, ¬T.Child p q) → Effect p T v (.wait addr) (some (-1)) T v
  | waitSleep (addr q) : T.Child p q → (∀ q, ¬T.Dead p q) → Effect p T v (.wait addr) none
      (Function.update T p { T p with chan := some (.proc p), state := .waiting }) v
  /-- The status cannot be copied out. -/
  | waitFail (addr q) : IsFirst (T.Dead p) q → addr ≠ 0 → Effect p T v (.wait addr) (some (-1)) T v
  | waitReap (addr q) : IsFirst (T.Dead p) q →
      Effect p T v (.wait addr) (some (T q).pid) (Function.update T q .reset) v
  | exitNone (status) : (∀ q, ¬T.Reaper p q) →
      Effect p T v (.exit status) none (T.exit p status none) v
  | exit (status r) : IsFirst (T.Reaper p) r →
      Effect p T v (.exit status) none (T.exit p status (some r)) v

/-! ## One hart alone -/

def Proc.row (q : Proc) : Row := ⟨q.pid, q.state, q.chan, q.parent, q.xstate⟩

/-- The table in a state. -/
def State.rows (s : State n) : Table := fun i => (s.procs i).row

@[simp] theorem State.rows_setPc (s : State n) (h : Fin n) (k : Pc) : (s.setPc h k).rows = s.rows := by
  funext i
  simp [rows]

@[simp] theorem State.rows_setProc (s : State n) (i : Slot) (q : Proc) :
    (s.setProc i q).rows = Function.update s.rows i q.row := by
  funext j
  by_cases hj : j = i
  · subst hj
    simp [rows, setProc]
  · simp [rows, setProc, hj]

/-- Hart `h` is in the kernel at `pc`, for the process in slot `p`; the others hold no locks. -/
structure Alone (h : Fin n) (p : Slot) (T : Table) (v : Int) (pc : Pc) (s : State n) : Prop where
  reachable : (system n).Reachable s
  cur : s.cur h = some p
  rows : s.rows = T
  currPid : s.currPid = v
  pc : s.pcOf h = pc
  others : ∀ h', h' ≠ h → (s.pcOf h').locks = ∅

/-- The process has left hart `h` by `swtch`. -/
structure Gone (h : Fin n) (T : Table) (v : Int) (s : State n) : Prop where
  reachable : (system n).Reachable s
  cur : s.cur h = none
  rows : s.rows = T
  currPid : s.currPid = v
  others : ∀ h', h' ≠ h → (s.pcOf h').locks = ∅

/-- What the steps of hart `h` can bring about. -/
abbrev Solo (h : Fin n) : (State n → Prop) → (State n → Prop) → Prop :=
  Lts.Leads (fun s (a : Fin n × Choice) => next s a.1 a.2) (fun a => a.1 = h)

section Rules

variable {h : Fin n} {p i : Slot} {T T' : Table} {v v' : Int} {pc k : Pc} {s s' : State n}

theorem Alone.inv (ha : Alone h p T v pc s) : Inv s := inv_reachable ha.reachable

theorem Alone.cproc (ha : Alone h p T v pc s) : s.cproc h = some p := (ha.inv.cur h p ha.cur).2

theorem Alone.others_step (ha : Alone h p T v pc s) {c : Choice} (hn : next s h c = some s') :
    (system n).Reachable s' ∧ ∀ h', h' ≠ h → (s'.pcOf h').locks = ∅ := by
  refine ⟨ha.reachable.next (a := ⟨h, c, emit s h c⟩) ⟨hn, rfl⟩, fun h' hh => ?_⟩
  rw [ha.inv.pcOf_step (next_step hn) hh]
  exact ha.others h' hh

/-- The hart goes on to `k` on the stack of the process. -/
theorem solo_move (c : Choice) (hgo : ∀ s, Alone h p T v pc s → ∃ s₁ : State n,
      next s h c = some (s₁.setPc h k) ∧ s₁.cur = s.cur ∧ s₁.rows = T' ∧ s₁.currPid = v') :
    Solo h (Alone h p T v pc) (Alone h p T' v' k) := by
  refine Lts.Leads.step (a := (h, c)) rfl fun s ha => ?_
  obtain ⟨s₁, hn, hcur, hrows, hv⟩ := hgo s ha
  obtain ⟨hr, ho⟩ := ha.others_step hn
  refine ⟨_, hn, hr, ?_, ?_, ?_, State.pcOf_setPc_self _ h k, ho⟩
  · rw [State.cur_setPc, hcur, ha.cur]
  · rw [State.rows_setPc, hrows]
  · rw [State.currPid_setPc, hv]

/-- A step that leaves the table alone. -/
theorem solo_plain (c : Choice) (hgo : ∀ s, Alone h p T v pc s → ∃ s₁ : State n,
      next s h c = some (s₁.setPc h k) ∧ s₁.cur = s.cur ∧ s₁.procs = s.procs ∧
        s₁.currPid = s.currPid) :
    Solo h (Alone h p T v pc) (Alone h p T v k) := by
  refine solo_move c fun s ha => ?_
  obtain ⟨s₁, hn, hcur, hprocs, hv⟩ := hgo s ha
  refine ⟨s₁, hn, hcur, ?_, by rw [hv, ha.currPid]⟩
  rw [← ha.rows]
  funext i
  rw [State.rows, State.rows, hprocs]

theorem solo_acq (l : Lock) (k : Pc) : Solo h (Alone h p T v (.acq l k)) (Alone h p T v k) := by
  refine solo_plain .go fun s ha =>
    ⟨(s.setLock l (some h)).setCpu h (Spinlock.pushOff (s.cpus h)), ?_, rfl, rfl, rfl⟩
  simp only [next, go, ha.pc, lock, ha.inv.free_of_others ha.others ha.pc]

theorem solo_rel (l : Lock) (k : Pc) : Solo h (Alone h p T v (.rel l k)) (Alone h p T v k) := by
  refine solo_plain .go fun s ha => ?_
  have hpan := ha.inv.not_panics (h := h)
  rw [ha.pc] at hpan
  have hl : s.locks l = some h := by
    by_contra hl
    exact hpan (.unlock l k hl)
  cases hpop : Spinlock.popOff (s.cpus h) with
  | error m => exact absurd (.pop l k m hl hpop) hpan
  | ok c =>
      refine ⟨(s.setLock l none).setCpu h c, ?_, rfl, rfl, rfl⟩
      simp only [next, go, ha.pc, unlock, if_pos hl, hpop]

/-- Points that go on in one way, without a look at the state. -/
theorem solo_mm (k : Pc) : Solo h (Alone h p T v (.mm k)) (Alone h p T v k) :=
  solo_plain .go fun s ha => ⟨s, by simp only [next, go, ha.pc], rfl, rfl, rfl⟩

/-- The process goes to `swtch`. -/
theorem solo_leave (hl : Leaves pc k) : Solo h (Alone h p T v pc) (Gone h T v) := by
  refine Lts.Leads.step (a := (h, Choice.go)) rfl fun s ha => ?_
  have hl' : Leaves (s.pcOf h) k := ha.pc ▸ hl
  obtain ⟨s', hg⟩ : ∃ s', go s h .go = some s' := by
    rcases hl with hp | ⟨q, hp, -⟩ <;> exact ⟨_, by rw [go, ha.pc, hp]⟩
  obtain ⟨q, hc, rfl⟩ := ha.inv.go_leaves hl' hg
  obtain ⟨hr, ho⟩ := ha.others_step (c := .go) hg
  exact ⟨_, hg, hr, Function.update_self _ _ _, ha.rows, ha.currPid, ho⟩

/-! ## What the hart reads -/

theorem Alone.row (ha : Alone h p T v pc s) (i : Slot) : (s.procs i).row = T i := congrFun ha.rows i

theorem Alone.pid (ha : Alone h p T v pc s) (i : Slot) : (s.procs i).pid = (T i).pid :=
  congrArg Row.pid (ha.row i)

theorem Alone.state (ha : Alone h p T v pc s) (i : Slot) : (s.procs i).state = (T i).state :=
  congrArg Row.state (ha.row i)

theorem Alone.chan (ha : Alone h p T v pc s) (i : Slot) : (s.procs i).chan = (T i).chan :=
  congrArg Row.chan (ha.row i)

theorem Alone.parent (ha : Alone h p T v pc s) (i : Slot) : (s.procs i).parent = (T i).parent :=
  congrArg Row.parent (ha.row i)

/-- A step that does not change any slot and looks at the table only. -/
theorem solo_read (c : Choice) (hgo : ∀ s : State n, Alone h p T v pc s →
    next s h c = some (s.setPc h k)) : Solo h (Alone h p T v pc) (Alone h p T v k) :=
  solo_plain c fun s ha => ⟨s, hgo s ha, rfl, rfl, rfl⟩

/-- A step that changes slot `i`. -/
theorem solo_write (c : Choice) {r : Row} (hgo : ∀ s : State n, Alone h p T v pc s →
    ∃ q : Proc, next s h c = some ((s.setProc i q).setPc h k) ∧ q.row = r) :
    Solo h (Alone h p T v pc) (Alone h p (Function.update T i r) v k) := by
  refine solo_move c fun s ha => ?_
  obtain ⟨q, hn, hq⟩ := hgo s ha
  exact ⟨s.setProc i q, hn, rfl, by rw [State.rows_setProc, ha.rows, hq], ha.currPid⟩

/-! ## `wakeup` -/

theorem Table.woken_zero (T : Table) (c : Option Chan) : T.woken c 0 = T := by
  funext q
  simp [Table.woken]

theorem Table.woken_succ (T : Table) (c : Option Chan) (i : Slot) :
    T.woken c (i + 1) = Function.update (T.woken c i) i (((T.woken c i) i).wake c) := by
  funext q
  by_cases hq : q = i
  · subst hq
    simp [Table.woken]
  · have hne : q.val ≠ i.val := fun he => hq (Fin.ext he)
    have hiff : q.val < i.val + 1 ↔ q.val < i.val := by omega
    simp [Table.woken, hq, hiff]

theorem solo_wakeCheck (c : Option Chan) (i : Slot) (k : Pc) :
    Solo h (Alone h p T v (.wakeCheck c i k))
      (Alone h p (Function.update T i ((T i).wake c)) v (.rel (.proc i) (.wakeup c (i + 1) k))) := by
  by_cases hw : (T i).chan = c ∧ (T i).state = .waiting
  · rw [Row.wake, if_pos hw]
    refine solo_write .go fun s ha => ⟨{ s.procs i with state := .ready }, ?_, ?_⟩
    · rw [← ha.chan, ← ha.state] at hw
      simp only [next, go, ha.pc, if_pos hw]
    · rw [← ha.row]
      rfl
  · rw [Row.wake, if_neg hw, Function.update_eq_self]
    refine solo_read .go fun s ha => ?_
    rw [← ha.chan, ← ha.state] at hw
    simp only [next, go, ha.pc, if_neg hw]

theorem solo_wakeup (c : Option Chan) (k : Pc) :
    Solo h (Alone h p T v (.wakeup c 0 k)) (Alone h p (T.woken c NPROC) v k) := by
  have hloop : Solo h (Alone h p (T.woken c 0) v (.wakeup c 0 k))
      (Alone h p (T.woken c NPROC) v (.wakeup c NPROC k)) := by
    refine Lts.Leads.loop (I := fun i => Alone h p (T.woken c i) v (.wakeup c i k)) ?_ (Nat.zero_le _)
    intro i hi
    refine (solo_read .go fun s ha => ?_).trans ((solo_acq (.proc ⟨i, hi⟩) _).trans
      ((solo_wakeCheck c ⟨i, hi⟩ k).trans ?_))
    · simp only [next, go, ha.pc, dif_pos hi]
    · rw [← Table.woken_succ T c ⟨i, hi⟩]
      exact solo_rel _ _
  rw [Table.woken_zero] at hloop
  refine hloop.trans (solo_read .go fun s ha => ?_)
  simp only [next, go, ha.pc, lt_irrefl, dite_false]

/-! ## `fork` -/

/-- `procalloc` passes over the slots that are taken. -/
theorem solo_paScan {m : Nat} (hm : m ≤ NPROC)
    (hT : ∀ j : Slot, j < m → (T j).state ≠ .unused) :
    Solo h (Alone h p T v (.paScan p 0)) (Alone h p T v (.paScan p m)) := by
  refine Lts.Leads.loop (I := fun i => Alone h p T v (.paScan p i)) ?_ (Nat.zero_le _)
  intro i hi
  have hN : i < NPROC := hi.trans_le hm
  refine (solo_read .go fun s ha => ?_).trans ((solo_acq (.proc ⟨i, hN⟩) (.paCheck p ⟨i, hN⟩)).trans
    ((solo_read .go fun s ha => ?_).trans (solo_rel (.proc ⟨i, hN⟩) _)))
  · simp only [next, go, ha.pc, dif_pos hN]
  · have hne := hT ⟨i, hN⟩ hi
    rw [← ha.state] at hne
    simp only [next, go, ha.pc, if_neg hne]

theorem solo_paCheck (hi : (T i).state = .unused) : Solo h (Alone h p T v (.paScan p i))
    (Alone h p (Function.update T i { T i with state := .new }) v (.acq .pid (.paPid p i))) := by
  refine (solo_read .go fun s ha => ?_).trans ((solo_acq (.proc i) (.paCheck p i)).trans
    ((solo_write .go fun s ha => ⟨{ s.procs i with state := .new }, ?_, ?_⟩).trans
      (solo_rel (.proc i) _)))
  · simp only [next, go, ha.pc, dif_pos i.isLt]
  · rw [← ha.state] at hi
    simp only [next, go, ha.pc, if_pos hi]
  · rw [← ha.row]
    rfl

theorem solo_paPid : Solo h (Alone h p T v (.acq .pid (.paPid p i)))
    (Alone h p T (succPid v) (.paSetPid p i v)) := by
  refine (solo_acq .pid _).trans ((solo_move .go fun s ha =>
    ⟨{ s with currPid := succPid s.currPid }, ?_, rfl, ha.rows, ?_⟩).trans (solo_rel .pid _))
  · simp only [next, go, ha.pc, ha.currPid]
  · rw [← ha.currPid]

theorem solo_paSetPid (w : Int) : Solo h (Alone h p T v (.paSetPid p i w))
    (Alone h p (Function.update T i { T i with pid := w }) v (.paAlloc p i)) := by
  refine (solo_write .go fun s ha => ⟨{ s.procs i with pid := w }, ?_, ?_⟩).trans (solo_mm _)
  · simp only [next, go, ha.pc]
  · rw [← ha.row]
    rfl

/-- `procalloc` claims slot `i` and gives it a pid. -/
theorem solo_claim (hi : (T i).state = .unused) : Solo h (Alone h p T v (.paScan p i))
    (Alone h p (Function.update T i { T i with state := .new, pid := v }) (succPid v)
      (.paAlloc p i)) := by
  have hset := solo_paSetPid (h := h) (p := p) (i := i) (v := succPid v)
    (T := Function.update T i { T i with state := .new }) v
  rw [Function.update_idem, Function.update_self] at hset
  exact ((solo_paCheck hi).trans solo_paPid).trans hset

/-- `releaseproc(i)`, called with the lock held -/
theorem solo_release (r : Releaser) (k : Pc) : Solo h (Alone h p T v (.release i r k))
    (Alone h p (Function.update T i .reset) v k) := by
  refine solo_write .go fun s ha => ⟨releaseproc (s.procs i), ?_, rfl⟩
  have hpan := ha.inv.not_panics (h := h)
  rw [ha.pc] at hpan
  have hl : s.locks (.proc i) = some h := by
    by_contra hl
    exact hpan (.release i r k hl)
  simp only [next, go, ha.pc, if_pos hl, reduceCtorEq, if_false]

/-- `procalloc` fails for want of memory. -/
theorem solo_failFork : Solo h (Alone h p T v (.paAlloc p i))
    (Alone h p (Function.update T i .reset) v (.sysret .fork p (-1))) := by
  have hfail : Solo h (Alone h p T v (.paAlloc p i)) (Alone h p T v (failFork p i)) :=
    solo_read .fail fun s ha => by simp only [next, go, ha.pc, if_true]
  exact hfail.trans ((solo_acq _ _).trans ((solo_release _ _).trans
    ((solo_rel _ _).trans (solo_mm _))))

/-- `procalloc` sets up the context, and `uvmcopy` copies the memory. -/
theorem solo_copy : Solo h (Alone h p T v (.paAlloc p i)) (Alone h p T v (.forkPid p i)) := by
  have halloc : Solo h (Alone h p T v (.paAlloc p i)) (Alone h p T v (.mm (.forkCopy p i))) := by
    refine solo_plain .go fun s ha =>
      ⟨{ s with tpc := Function.update s.tpc i (.forkret i) }, ?_, rfl, rfl, rfl⟩
    simp only [next, go, ha.pc, reduceCtorEq, if_false]
  have hcopy : Solo h (Alone h p T v (.forkCopy p i)) (Alone h p T v (.forkPid p i)) :=
    solo_read .go fun s ha => by simp only [next, go, ha.pc, reduceCtorEq, if_false]
  exact halloc.trans ((solo_mm _).trans hcopy)

/-- `fork` publishes the child. -/
theorem solo_publish : Solo h (Alone h p T v (.forkPid p i)) (Alone h p
    (Function.update T i { T i with parent := some p, state := .ready }) v
    (.sysret .fork p (T i).pid)) := by
  have hpid : Solo h (Alone h p T v (.forkPid p i)) (Alone h p T v
      (.acq .wait (.acq (.proc i) (.forkPublish p i (T i).pid)))) :=
    solo_read .go fun s ha => by simp only [next, go, ha.pc, ha.pid]
  have hset : Solo h (Alone h p T v (.forkPublish p i (T i).pid)) (Alone h p
      (Function.update T i { T i with parent := some p, state := .ready }) v
      (.rel (.proc i) (.rel .wait (.sysret .fork p (T i).pid)))) := by
    refine solo_write .go fun s ha => ⟨{ s.procs i with
      parent := some p, state := .ready, origin := .forked p (s.procs p).gen }, ?_, ?_⟩
    · simp only [next, go, ha.pc]
    · rw [← ha.row]
      rfl
  exact hpid.trans ((solo_acq _ _).trans ((solo_acq _ _).trans
    (hset.trans ((solo_rel _ _).trans (solo_rel _ _)))))

/-- `fork` from user mode on. -/
theorem solo_fork : Solo h (Alone h p T v .user) (Alone h p T v (.paScan p 0)) :=
  solo_plain .fork fun s ha => ⟨s.setSie h true,
    by simp only [next, go, ha.pc, trap, ha.cproc], rfl, rfl, rfl⟩

theorem solo_fork_full (hT : ∀ i, (T i).state ≠ .unused) :
    Solo h (Alone h p T v .user) (Alone h p T v (.sysret .fork p (-1))) := by
  have hend : Solo h (Alone h p T v (.paScan p NPROC)) (Alone h p T v (.mm (.sysret .fork p (-1)))) :=
    solo_read .go fun s ha => by simp only [next, go, ha.pc, lt_irrefl, dite_false]
  exact solo_fork.trans ((solo_paScan le_rfl fun j _ => hT j).trans (hend.trans (solo_mm _)))

/-- `fork` claims the first slot that is free. -/
theorem solo_fork_claim (hi : IsFirst (fun i => (T i).state = .unused) i) :
    Solo h (Alone h p T v .user) (Alone h p
      (Function.update T i { T i with state := .new, pid := v }) (succPid v) (.paAlloc p i)) :=
  solo_fork.trans ((solo_paScan i.isLt.le fun j hj => hi.2 j hj).trans (solo_claim hi.1))

theorem solo_fork_fail (hi : IsFirst (fun i => (T i).state = .unused) i) :
    Solo h (Alone h p T v .user)
      (Alone h p (Function.update T i .reset) (succPid v) (.sysret .fork p (-1))) := by
  have hfail := solo_failFork (h := h) (p := p) (i := i) (v := succPid v)
    (T := Function.update T i { T i with state := .new, pid := v })
  rw [Function.update_idem] at hfail
  exact (solo_fork_claim hi).trans hfail

theorem solo_fork_ok (hi : IsFirst (fun i => (T i).state = .unused) i) :
    Solo h (Alone h p T v .user) (Alone h p
      (Function.update T i { T i with pid := v, parent := some p, state := .ready }) (succPid v)
      (.sysret .fork p v)) := by
  have hpub := solo_publish (h := h) (p := p) (i := i) (v := succPid v)
    (T := Function.update T i { T i with state := .new, pid := v })
  rw [Function.update_idem, Function.update_self] at hpub
  exact (solo_fork_claim hi).trans (solo_copy.trans hpub)

/-! ## `wait` -/

/-- Has `wait` seen a child among the first `i` slots? -/
def Table.kids (T : Table) (p : Slot) (i : Nat) : Bool := decide (∃ q : Slot, q < i ∧ T.Child p q)

theorem Table.kids_succ (T : Table) (p i : Slot) :
    T.kids p (i + 1) = (T.kids p i || decide (T.Child p i)) := by
  rw [Bool.eq_iff_iff]
  simp only [Table.kids, decide_eq_true_eq, Bool.or_eq_true]
  constructor
  · rintro ⟨q, hq, hc⟩
    rcases Nat.lt_succ_iff_lt_or_eq.1 hq with hlt | he
    · exact .inl ⟨q, hlt, hc⟩
    · exact .inr (Fin.ext he ▸ hc)
  · rintro (⟨q, hq, hc⟩ | hc)
    · exact ⟨q, hq.trans (Nat.lt_succ_self _), hc⟩
    · exact ⟨i, Nat.lt_succ_self _, hc⟩

/-- `wait` finds a child and takes its lock. -/
theorem solo_waitChild {a : Nat} {b : Bool} (hc : T.Child p i) :
    Solo h (Alone h p T v (.waitScan p a i b)) (Alone h p T v (.waitCheck p a i)) := by
  have hscan : Solo h (Alone h p T v (.waitScan p a i b))
      (Alone h p T v (.acq (.proc i) (.waitCheck p a i))) := by
    refine solo_read .go fun s ha => ?_
    have hpar : (s.procs i).parent = some p := (ha.parent i).trans hc
    simp only [next, go, ha.pc, dif_pos i.isLt, Fin.eta, hpar, ne_eq, not_true_eq_false, if_false]
  exact hscan.trans (solo_acq _ _)

/-- `wait` passes over what is not a dead child. -/
theorem solo_waitScan {a m : Nat} (hm : m ≤ NPROC) (hT : ∀ j : Slot, j < m → ¬T.Dead p j) :
    Solo h (Alone h p T v (.waitScan p a 0 false)) (Alone h p T v (.waitScan p a m (T.kids p m))) := by
  have h0 : T.kids p 0 = false := by simp [Table.kids]
  rw [← h0]
  refine Lts.Leads.loop (I := fun i => Alone h p T v (.waitScan p a i (T.kids p i))) ?_ (Nat.zero_le _)
  intro i hi
  obtain ⟨i, rfl⟩ : ∃ j : Slot, i = j := ⟨⟨i, hi.trans_le hm⟩, rfl⟩
  rw [T.kids_succ p i]
  by_cases hc : T.Child p i
  · have hcheck : Solo h (Alone h p T v (.waitCheck p a i))
        (Alone h p T v (.rel (.proc i) (.waitScan p a (i + 1) true))) := by
      refine solo_read .go fun s ha => ?_
      have hz : (s.procs i).state ≠ .zombie := fun hz => hT i hi ⟨hc, (ha.state i).symm.trans hz⟩
      simp only [next, go, ha.pc, if_neg hz]
    rw [decide_eq_true hc, Bool.or_true]
    exact (solo_waitChild hc).trans (hcheck.trans (solo_rel _ _))
  · rw [decide_eq_false hc, Bool.or_false]
    refine solo_read .go fun s ha => ?_
    have hpar : (s.procs i).parent ≠ some p := fun hp => hc ((ha.parent i).symm.trans hp)
    simp only [next, go, ha.pc, dif_pos i.isLt, Fin.eta, if_pos hpar]

theorem solo_wait (a : Nat) : Solo h (Alone h p T v .user) (Alone h p T v (.waitScan p a 0 false)) := by
  have htrap : Solo h (Alone h p T v .user) (Alone h p T v (.acq .wait (.waitScan p a 0 false))) :=
    solo_plain (.wait a) fun s ha => ⟨s.setSie h true,
      by simp only [next, go, ha.pc, trap, ha.cproc], rfl, rfl, rfl⟩
  exact htrap.trans (solo_acq _ _)

theorem solo_wait_none (a : Nat) (hT : ∀ q, ¬T.Child p q) :
    Solo h (Alone h p T v .user) (Alone h p T v (.sysret .wait p (-1))) := by
  have hk : T.kids p NPROC = false := by simp [Table.kids, hT]
  have hscan := solo_waitScan (h := h) (v := v) (a := a) le_rfl fun j _ hd => hT j hd.1
  rw [hk] at hscan
  have hend : Solo h (Alone h p T v (.waitScan p a NPROC false))
      (Alone h p T v (.rel .wait (.sysret .wait p (-1)))) :=
    solo_read .go fun s ha => by simp only [next, go, ha.pc, lt_irrefl, dite_false, if_true]
  exact (solo_wait a).trans (hscan.trans (hend.trans (solo_rel _ _)))

/-- `wait` goes to sleep on its own slot. -/
theorem solo_wait_sleep (a : Nat) {q : Slot} (hq : T.Child p q) (hT : ∀ q, ¬T.Dead p q) :
    Solo h (Alone h p T v .user) (Gone h (Function.update T p
      { T p with chan := some (.proc p), state := .waiting }) v) := by
  have hk : T.kids p NPROC = true := decide_eq_true ⟨q, q.isLt, hq⟩
  have hscan := solo_waitScan (h := h) (v := v) (a := a) le_rfl fun j _ => hT j
  rw [hk] at hscan
  have hend : Solo h (Alone h p T v (.waitScan p a NPROC true)) (Alone h p T v (.acq (.proc p)
      (.rel .wait (.sleepSet p (.proc p) .wait (.waitScan p a 0 false))))) :=
    solo_read .go fun s ha => by
      simp only [next, go, ha.pc, lt_irrefl, dite_false, Bool.true_eq_false, if_false, sleep, ha.cproc]
  have hset : Solo h (Alone h p T v (.sleepSet p (.proc p) .wait (.waitScan p a 0 false)))
      (Alone h p (Function.update T p { T p with chan := some (.proc p), state := .waiting }) v
        (.sched (.sleepWake p .wait (.waitScan p a 0 false)))) := by
    refine solo_write .go fun s ha =>
      ⟨{ s.procs p with chan := some (.proc p), state := .waiting }, ?_, ?_⟩
    · simp only [next, go, ha.pc]
    · rw [← ha.row]
      rfl
  exact (solo_wait a).trans (hscan.trans (hend.trans ((solo_acq _ _).trans
    ((solo_rel _ _).trans (hset.trans (solo_leave (.inl rfl)))))))

/-- `wait` comes to the first dead child. -/
theorem solo_wait_dead (a : Nat) (hq : IsFirst (T.Dead p) i) :
    Solo h (Alone h p T v .user) (Alone h p T v (.waitCheck p a i)) :=
  (solo_wait a).trans ((solo_waitScan i.isLt.le fun j hj => hq.2 j hj).trans (solo_waitChild hq.1.1))

theorem solo_waitCopyout {a : Nat} (ha0 : a ≠ 0) (hz : (T i).state = .zombie) :
    Solo h (Alone h p T v (.waitCheck p a i))
      (Alone h p T v (.waitCopyout p a i (T i).pid (T i).xstate)) := by
  refine solo_read .go fun s ha => ?_
  have hx : (s.procs i).xstate = (T i).xstate := congrArg Row.xstate (ha.row i)
  rw [← ha.state] at hz
  simp only [next, go, ha.pc, if_pos hz, if_pos ha0, ha.pid, hx]

theorem solo_wait_fail {a : Nat} (ha0 : a ≠ 0) (hq : IsFirst (T.Dead p) i) :
    Solo h (Alone h p T v .user) (Alone h p T v (.sysret .wait p (-1))) := by
  have hfail : Solo h (Alone h p T v (.waitCopyout p a i (T i).pid (T i).xstate))
      (Alone h p T v (.rel (.proc i) (.rel .wait (.sysret .wait p (-1))))) :=
    solo_read .fail fun s ha => by simp only [next, go, ha.pc, if_true]
  exact (solo_wait_dead a hq).trans ((solo_waitCopyout ha0 hq.1.2).trans
    (hfail.trans ((solo_rel _ _).trans (solo_rel _ _))))

theorem solo_wait_reap (a : Nat) (hq : IsFirst (T.Dead p) i) :
    Solo h (Alone h p T v .user)
      (Alone h p (Function.update T i .reset) v (.sysret .wait p (T i).pid)) := by
  have hreap : Solo h (Alone h p T v (.waitCheck p a i)) (Alone h p T v (reap p i (T i).pid)) := by
    by_cases ha0 : a = 0
    · subst ha0
      refine solo_read .go fun s ha => ?_
      have hz : (s.procs i).state = .zombie := (ha.state i).trans hq.1.2
      simp only [next, go, ha.pc, if_pos hz, ne_eq, not_true_eq_false, if_false, ha.pid]
    · exact (solo_waitCopyout ha0 hq.1.2).trans
        (solo_read .go fun s ha => by simp only [next, go, ha.pc, reduceCtorEq, if_false])
  exact (solo_wait_dead a hq).trans (hreap.trans ((solo_release _ _).trans
    ((solo_rel _ _).trans (solo_rel _ _))))

/-! ## `kexit` -/

/-- `kexit` passes over those that cannot be the reaper. -/
theorem solo_exitScan {st : Int} {m : Nat} (hm : m ≤ NPROC)
    (hT : ∀ j : Slot, j < m → ¬T.Reaper p j) :
    Solo h (Alone h p T v (.exitScan p st 0)) (Alone h p T v (.exitScan p st m)) := by
  refine Lts.Leads.loop (I := fun i => Alone h p T v (.exitScan p st i)) ?_ (Nat.zero_le _)
  intro i hi
  obtain ⟨i, rfl⟩ : ∃ j : Slot, i = j := ⟨⟨i, hi.trans_le hm⟩, rfl⟩
  by_cases hf : (T i).pid = 1 ∧ i ≠ p
  · -- it is a zombie
    have hz : (T i).state = .zombie := by
      by_contra hz
      exact hT i hi ⟨hf.1, hf.2, hz⟩
    have hfound : Solo h (Alone h p T v (.exitScan p st i)) (Alone h p T v (.exitScanState p st i)) := by
      refine solo_read .go fun s ha => ?_
      rw [← ha.pid] at hf
      simp only [next, go, ha.pc, dif_pos i.isLt, Fin.eta, if_pos hf]
    refine hfound.trans (solo_read .go fun s ha => ?_)
    rw [← ha.state] at hz
    simp only [next, go, ha.pc, hz, ne_eq, not_true_eq_false, if_false]
  · refine solo_read .go fun s ha => ?_
    rw [← ha.pid] at hf
    simp only [next, go, ha.pc, dif_pos i.isLt, Fin.eta, if_neg hf]

/-- The reaper is the first slot that can be it, or there is none. -/
theorem solo_reaper {st : Int} {r : Option Slot}
    (hr : ∀ q, r = some q → IsFirst (T.Reaper p) q) (hn : r = none → ∀ q, ¬T.Reaper p q) :
    Solo h (Alone h p T v (.exitScan p st 0)) (Alone h p T v (.exitChildren p st r 0 false)) := by
  cases r with
  | none =>
      refine (solo_exitScan le_rfl fun j _ => hn rfl j).trans (solo_read .go fun s ha => ?_)
      simp only [next, go, ha.pc, lt_irrefl, dite_false]
  | some q =>
      obtain ⟨⟨hpid, hne, hz⟩, hfirst⟩ := hr q rfl
      have hfound : Solo h (Alone h p T v (.exitScan p st q))
          (Alone h p T v (.exitScanState p st q)) := by
        refine solo_read .go fun s ha => ?_
        have hf : (s.procs q).pid = 1 ∧ q ≠ p := ⟨(ha.pid q).trans hpid, hne⟩
        simp only [next, go, ha.pc, dif_pos q.isLt, Fin.eta, if_pos hf]
      refine (solo_exitScan q.isLt.le fun j hj => hfirst j hj).trans
        (hfound.trans (solo_read .go fun s ha => ?_))
      rw [← ha.state] at hz
      simp only [next, go, ha.pc, if_pos hz]

/-- Has the reaper been given a zombie from among the first `i` slots? -/
def Table.gave (T : Table) (p : Slot) (r : Option Slot) (i : Nat) : Bool :=
  decide (r ≠ none ∧ ∃ q : Slot, q < i ∧ T.Dead p q)

theorem Table.gave_succ (T : Table) (p : Slot) (r : Option Slot) (i : Slot) :
    T.gave p r (i + 1) = (T.gave p r i || decide (r ≠ none ∧ T.Dead p i)) := by
  rw [Bool.eq_iff_iff]
  simp only [Table.gave, decide_eq_true_eq, Bool.or_eq_true, ← and_or_left]
  refine and_congr_right fun _ => ⟨?_, ?_⟩
  · rintro ⟨q, hq, hd⟩
    rcases Nat.lt_succ_iff_lt_or_eq.1 hq with hlt | he
    · exact .inl ⟨q, hlt, hd⟩
    · exact .inr (Fin.ext he ▸ hd)
  · rintro (⟨q, hq, hd⟩ | hd)
    · exact ⟨q, hq.trans (Nat.lt_succ_self _), hd⟩
    · exact ⟨i, Nat.lt_succ_self _, hd⟩

theorem Table.handed_zero (T : Table) (p : Slot) (r : Option Slot) : T.handed p r 0 = T := by
  funext q
  simp [Table.handed]

theorem Table.handed_succ (T : Table) (p : Slot) (r : Option Slot) (i : Slot) :
    T.handed p r (i + 1) =
      if T.Child p i then Function.update (T.handed p r i) i ((T i).hand r) else T.handed p r i := by
  funext q
  by_cases hq : q = i
  · subst hq
    by_cases hc : T.Child p q <;> simp [Table.handed, hc]
  · have hne : q.val ≠ i.val := fun he => hq (Fin.ext he)
    have hiff : q.val < i.val + 1 ↔ q.val < i.val := by omega
    by_cases hc : T.Child p i <;> simp [Table.handed, hc, hq, hiff]

/-- The slots from `i` on are as they were. -/
theorem Table.handed_self (T : Table) (p : Slot) (r : Option Slot) (i : Slot) :
    T.handed p r i i = T i := by
  simp [Table.handed]

/-- A child is handed over. -/
theorem solo_exitHand (st : Int) {r : Option Slot} {g : Bool} (hc : T.Child p i) :
    Solo h (Alone h p T v (.exitChildren p st r i g)) (Alone h p
      (Function.update T i ((T i).hand r)) v
      (.exitChildren p st r (i + 1) (g || decide (r ≠ none ∧ T.Dead p i)))) := by
  have hfound : Solo h (Alone h p T v (.exitChildren p st r i g))
      (Alone h p T v (.acq (.proc i) (.exitHand p st r i g))) := by
    refine solo_read .go fun s ha => ?_
    have hpar : (s.procs i).parent = some p := (ha.parent i).trans hc
    simp only [next, go, ha.pc, dif_pos i.isLt, Fin.eta, if_pos hpar]
  refine (hfound.trans (solo_acq _ _)).trans ?_
  -- the child gets its new parent, and what follows depends on its state
  have hset : ∀ k, (∀ s : State n, Alone h p T v (.exitHand p st r i g) s → next s h .go =
        some ((s.setProc i { s.procs i with
          parent := r
          origin := r.elim .none fun r => .handed r (s.procs r).gen }).setPc h k)) →
      Solo h (Alone h p T v (.exitHand p st r i g))
        (Alone h p (Function.update T i { T i with parent := r }) v k) := by
    intro k hgo
    refine solo_write .go fun s ha => ⟨_, hgo s ha, ?_⟩
    rw [← ha.row]
    rfl
  by_cases hz : (T i).state = .zombie
  · have hz' : ∀ s : State n, Alone h p T v (.exitHand p st r i g) s → (s.procs i).state = .zombie :=
      fun s ha => (ha.state i).trans hz
    cases r with
    | none =>
        -- nobody will reap it
        have hrel := solo_release (h := h) (p := p) (i := i) (v := v)
          (T := Function.update T i { T i with parent := none }) (.kexit p)
          (.rel (.proc i) (.exitChildren p st none (i + 1) g))
        rw [Function.update_idem] at hrel
        rw [Row.hand, if_pos ⟨hz, rfl⟩, decide_eq_false (by simp), Bool.or_false]
        refine (hset _ fun s ha => ?_).trans (hrel.trans (solo_rel _ _))
        simp only [next, go, ha.pc, if_pos (hz' s ha), Option.elim]
    | some q =>
        rw [Row.hand, if_neg (by simp), decide_eq_true ⟨by simp, hc, hz⟩, Bool.or_true]
        refine (hset _ fun s ha => ?_).trans (solo_rel (.proc i) _)
        simp only [next, go, ha.pc, if_pos (hz' s ha), Option.elim]
  · rw [Row.hand, if_neg fun hx => hz hx.1, decide_eq_false fun hx => hz hx.2.2, Bool.or_false]
    refine (hset _ fun s ha => ?_).trans (solo_rel (.proc i) _)
    rw [← ha.state] at hz
    cases r <;> simp only [next, go, ha.pc, if_neg hz, Option.elim]

/-- `kexit` gives its children away. -/
theorem solo_exitChildren {st : Int} (r : Option Slot) :
    Solo h (Alone h p T v (.exitChildren p st r 0 false))
      (Alone h p (T.handed p r NPROC) v (.exitChildren p st r NPROC (T.gave p r NPROC))) := by
  have h0 : T.gave p r 0 = false := by simp [Table.gave]
  have hloop : Solo h (Alone h p (T.handed p r 0) v (.exitChildren p st r 0 (T.gave p r 0)))
      (Alone h p (T.handed p r NPROC) v (.exitChildren p st r NPROC (T.gave p r NPROC))) := by
    refine Lts.Leads.loop
      (I := fun i => Alone h p (T.handed p r i) v (.exitChildren p st r i (T.gave p r i))) ?_
      (Nat.zero_le _)
    intro i hi
    obtain ⟨i, rfl⟩ : ∃ j : Slot, i = j := ⟨⟨i, hi⟩, rfl⟩
    have hself := T.handed_self p r i
    rw [T.handed_succ p r i, T.gave_succ p r i]
    by_cases hc : T.Child p i
    · have hc' : (T.handed p r i).Child p i := by rwa [Table.Child, hself]
      have hd : (T.handed p r i).Dead p i ↔ T.Dead p i := by
        rw [Table.Dead, Table.Dead, Table.Child, Table.Child, hself]
      have hhand := solo_exitHand (h := h) (v := v) st (r := r) (g := T.gave p r i) hc'
      rw [if_pos hc]
      simpa only [hself, hd] using hhand
    · have hd : ¬T.Dead p i := fun hd => hc hd.1
      rw [if_neg hc, decide_eq_false fun hx => hd hx.2, Bool.or_false]
      refine solo_read .go fun s ha => ?_
      have hpar : (s.procs i).parent ≠ some p := fun hp =>
        hc ((congrArg Row.parent hself).symm.trans ((ha.parent i).symm.trans hp))
      simp only [next, go, ha.pc, dif_pos i.isLt, Fin.eta, if_neg hpar]
  rwa [h0, T.handed_zero] at hloop

/-- `kexit` wakes the reaper up if it was given a zombie. -/
theorem solo_exitGave (st : Int) {r : Option Slot} {g : Bool} :
    Solo h (Alone h p T v (.exitChildren p st r NPROC g)) (Alone h p
      (if g = true then T.woken (r.map .proc) NPROC else T) v (.exitParent p st)) := by
  cases g with
  | true =>
      refine Lts.Leads.trans (solo_read .go fun s ha => ?_) (solo_wakeup (r.map .proc) _)
      simp only [next, go, ha.pc, lt_irrefl, dite_false, if_true]
  | false =>
      refine solo_read .go fun s ha => ?_
      simp only [next, go, ha.pc, lt_irrefl, dite_false, Bool.false_eq_true, if_false]

/-- `kexit` wakes its parent up, if it has one. -/
theorem solo_exitParent {st : Int} : Solo h (Alone h p T v (.exitParent p st)) (Alone h p
    (if (T p).parent = none then T else T.woken ((T p).parent.map .proc) NPROC) v
    (.acq (.proc p) (.exitZombie p st))) := by
  by_cases hp : (T p).parent = none
  · rw [if_pos hp]
    refine solo_read .go fun s ha => ?_
    rw [← ha.parent] at hp
    simp only [next, go, ha.pc, if_pos hp]
  · rw [if_neg hp]
    have harg : Solo h (Alone h p T v (.exitParent p st)) (Alone h p T v (.exitParentArg p st)) := by
      refine solo_read .go fun s ha => ?_
      rw [← ha.parent] at hp
      simp only [next, go, ha.pc, if_neg hp]
    refine harg.trans (Lts.Leads.trans (solo_read .go fun s ha => ?_)
      (solo_wakeup ((T p).parent.map .proc) _))
    simp only [next, go, ha.pc, ha.parent]

/-- `kexit` becomes a zombie and leaves for good. -/
theorem solo_exitZombie {st : Int} : Solo h (Alone h p T v (.acq (.proc p) (.exitZombie p st)))
    (Gone h (Function.update T p { T p with xstate := st, state := .zombie }) v) := by
  have hset : Solo h (Alone h p T v (.exitZombie p st)) (Alone h p
      (Function.update T p { T p with xstate := st, state := .zombie }) v
      (.rel .wait (.exitSched p))) := by
    refine solo_write .go fun s ha => ⟨{ s.procs p with xstate := st, state := .zombie }, ?_, ?_⟩
    · simp only [next, go, ha.pc]
    · rw [← ha.row]
      rfl
  exact (solo_acq _ _).trans (hset.trans ((solo_rel _ _).trans (solo_leave (.inr ⟨p, rfl, rfl⟩))))

theorem solo_exit (st : Int) {r : Option Slot} (hr : ∀ q, r = some q → IsFirst (T.Reaper p) q)
    (hn : r = none → ∀ q, ¬T.Reaper p q) :
    Solo h (Alone h p T v .user) (Gone h (T.exit p st r) v) := by
  have htrap : Solo h (Alone h p T v .user) (Alone h p T v (.mm (.acq .wait (.exitScan p st 0)))) :=
    solo_plain (.exit st) fun s ha => ⟨s.setSie h true,
      by simp only [next, go, ha.pc, trap, ha.cproc], rfl, rfl, rfl⟩
  have hgave : T.gave p r NPROC = true ↔ r ≠ none ∧ ∃ q, T.Dead p q := by
    simp [Table.gave]
  have hwake := solo_exitGave (h := h) (p := p) (v := v) (T := T.handed p r NPROC) st (r := r)
    (g := T.gave p r NPROC)
  simp only [hgave] at hwake
  exact htrap.trans ((solo_mm _).trans ((solo_acq _ _).trans ((solo_reaper hr hn).trans
    ((solo_exitChildren r).trans (hwake.trans (solo_exitParent.trans solo_exitZombie))))))

end Rules

/-! ## The calls -/

/-- The system call that the process has made. -/
def ProcCall.sys : ProcCall → Sys
  | .fork => .fork
  | .wait _ => .wait
  | .exit _ => .other

/-- The call `c` has returned, or the process has left the hart. -/
def Done (h : Fin n) (p : Slot) (c : ProcCall) (T : Table) (v : Int) : Option Int → State n → Prop
  | some r => Alone h p T v (.sysret c.sys p r)
  | none => Gone h T v

/-- Whatever `Effect` allows, the steps of the hart bring about. -/
theorem solo_call {h : Fin n} {p : Slot} {T T' : Table} {v v' : Int} {c : ProcCall} {r : Option Int}
    (he : Effect p T v c r T' v') : Solo h (Alone h p T v .user) (Done h p c T' v' r) := by
  cases he with
  | forkFull hT => exact solo_fork_full hT
  | forkFail i hi => exact solo_fork_fail hi
  | fork i hi => exact solo_fork_ok hi
  | waitNone a hT => exact solo_wait_none a hT
  | waitSleep a q hq hT => exact solo_wait_sleep a hq hT
  | waitFail a q hq ha => exact solo_wait_fail ha hq
  | waitReap a q hq => exact solo_wait_reap a hq
  | exitNone st hT => exact solo_exit st (by simp) fun _ => hT
  | exit st r hr => exact solo_exit st (fun q hq => Option.some.inj hq ▸ hr) (by simp)

end Wl00.Sched
