import Mathlib
import Wl00.Boot.Join
import Wl00.Sched.Progress

/-!
# Boot comes to an end

* `boot_gate` — until `init` is set, the harts other than hart 0 change nothing that is shared.
* `boot_refines` — the kernel that is handed over then is one that `Wl00.Vm` begins with, and what
  the schedulers do from then on is a run of `Wl00.Sched`.
* `boot_joins` — with room for `init`, no hart panics before it has come to `scheduler`, and all of
  them can always come there.

A hart that boots can be held up by `while(!init)` and by `print_lock`.  The lock may be taken by a
hart that schedules already, which gives it back without waiting for another lock.
-/

namespace Wl00.Sched

variable {n : Nat}

/-- The locks that are given back next. -/
def Pc.rels : Pc → Nat
  | .rel _ k => rels k + 1
  | _ => 0

/-- Who holds `print_lock` is about to give a lock back. -/
theorem Pc.exists_rel {pc : Pc} {t : Option Slot} (hw : pc.Wf t) (hr : pc.Ranked)
    (hl : .print ∈ pc.locks) : ∃ l k, pc = .rel l k := by
  cases pc
  case rel l k => exact ⟨l, k, rfl⟩
  case acq l k =>
    -- nothing ranks above `print_lock`
    have hlt := hr.2 .print hl
    cases l <;> simp [Lock.rank] at hlt
  case release q r k => exact absurd (hw.2.ranked.2 _ hl) (by simp [Lock.rank])
  case wakeup c i k => exact absurd (hr.2 _ hl) (by simp [Lock.rank])
  case wakeCheck c i k =>
    have hk : .print ∈ k.locks := by simpa using hl
    exact absurd (hr.2 _ hk) (by simp [Lock.rank])
  case sched k | schedRet ia k =>
    obtain ⟨-, -, -, -, p, -, hk⟩ := hw
    have hl : .print ∈ k.locks := hl
    rw [hk] at hl
    simp at hl
  all_goals simp_all

theorem go_rel {s : State n} (hi : Inv s) {h : Fin n} {l : Lock} {k : Pc}
    (hp : s.pcOf h = .rel l k) :
    ∃ s', go s h .go = some s' ∧ s'.pcOf h = k ∧ s'.locks = Function.update s.locks l none := by
  have hpan := hi.not_panics (h := h)
  rw [hp] at hpan
  have hl : s.locks l = some h := by
    by_contra hl
    exact hpan (.unlock l k hl)
  cases hc : Spinlock.popOff (s.cpus h) with
  | error m => exact absurd (.pop l k m hl hc) hpan
  | ok c =>
    refine ⟨((s.setLock l none).setCpu h c).setPc h k, ?_, State.pcOf_setPc_self .., ?_⟩
    · simp only [go, hp, unlock, hl, if_true, hc]
    · rw [State.locks_setPc]
      rfl

end Wl00.Sched

namespace Wl00.Boot

open Vm (Layout Kernel Programs NCPU Hart Accepts Roomy InRange makeSatp)
open Sched (Lock)

variable {L : Layout} {progs : Programs} {m m' : Machine L} {tp h : Hart} {x : Stmt} {xs : List Stmt}

/-! ## What can hold a hart up -/

theorem exec_waits (hx : exec progs m tp x = .waits) :
    x = .waitInit ∧ m.init = false ∨ x = .lockPrint ∧ ∃ h, h ≠ tp ∧ m.sched.locks .print = some h := by
  cases x <;> simp only [exec] at hx
  case waitInit =>
    split at hx
    · cases hx
    · next hinit => exact .inl ⟨rfl, by simpa using hinit⟩
  case lockPrint =>
    split at hx
    · cases hx
    · next h hl =>
      split at hx
      · cases hx
      · next hne => exact .inr ⟨rfl, h, hne, hl⟩
  all_goals repeat' split at hx
  all_goals cases hx

/-! ## What is left -/

/-- The steps before `scheduler`. -/
def Point.left (h : Hart) : Point → Nat
  | .entry => (program h).length + 2
  | .run _ todo => todo.length + 1
  | _ => 0

def Machine.left (m : Machine L) : Nat := ∑ h : Hart, (m.point h).left h

/-- What the hart that holds `print_lock` gives back first, if it schedules. -/
def Machine.held (m : Machine L) : Nat :=
  match m.view.locks .print with
  | none => 0
  | some h => (m.view.pcOf h).rels

theorem left_lt (hne : ∀ j, j ≠ h.val → m'.point j = m.point j)
    (hlt : (m'.point h).left h < (m.point h).left h) : m'.left < m.left := by
  refine Finset.sum_lt_sum (fun j _ => ?_) ⟨h, Finset.mem_univ h, hlt⟩
  by_cases hj : j = h
  · subst hj
    exact hlt.le
  · rw [hne j fun h' => hj (Fin.ext h')]

/-! ## Every hart comes to `scheduler` -/

/-- A hart goes on and does nothing besides. -/
def Machine.quiet (m : Machine L) (h : Hart) : Act L :=
  ⟨.go, ⟨m.kernel.mem, m.kernel.procs, [], m.satp h, m.stvec h⟩⟩

/-- Boot of hart 0 succeeds, whatever is in memory. -/
def Succeeds (L : Layout) (progs : Programs) : Prop :=
  ∀ bytes, ∃ k, Vm.boot progs (Kernel.start L bytes) = .ok ((), k)

theorem succeeds_of_room (hacc : Accepts progs.init) (hroom : Roomy progs.init (InRange L) 2052) :
    Succeeds L progs := by
  intro bytes
  rcases Prog.wpe_iff.1 (Vm.boot_spec (L := L) progs bytes) with ⟨_, k, hrun, -⟩ | ⟨e, -, -, hno⟩
  · exact ⟨k, hrun⟩
  · exact absurd ⟨hacc, hroom⟩ hno

theorem Inv.not_panic (hi : Inv progs m) (hok : Succeeds L progs) (i : Nat) : m.point i ≠ .panic := by
  have hmate : m.init = false → i ≠ 0 → m.point i ≠ .panic := by
    intro hinit h0 hp
    have hw := hi.waits hinit i h0
    rw [hp] at hw
    cases hw
  by_cases h0 : i = 0
  · subst h0
    cases hi.stage with
    | reset _ hp => rcases hp with hp | hp <;> simp [hp]
    | alone _ hp => simp [hp]
    | stopped _ _ hk =>
      obtain ⟨bytes, e, he⟩ := hk
      obtain ⟨k, hk⟩ := hok bytes
      cases hk.symm.trans he
    | released _ _ hp => exact hp 0
  · cases hi.stage with
    | reset h | alone h | stopped h => exact hmate h h0
    | released _ _ hp => exact hp i

/-- A hart that nothing holds up comes nearer. -/
theorem exists_advance (hr : (system L progs).Reachable m) (hok : Succeeds L progs)
    (hb : (m.point h).boots = true)
    (hgo : ∀ tp x xs, m.point h = .run tp (x :: xs) → exec progs m tp x ≠ .waits) :
    ∃ m', step progs m h (m.quiet h) = some m' ∧ m'.left < m.left := by
  have hi := inv_reachable hr
  have hset : ∀ (m₁ : Machine L) p, m₁.point = m.point → p.left h < (m.point h).left h →
      (m₁.goto h p).left < m.left := by
    intro m₁ p hpt hlt
    refine left_lt (h := h) (fun j hj => ?_) ?_
    · rw [point_goto_ne _ _ hj, hpt]
    · rwa [point_goto_self]
  cases hp : m.point h with
  | entry =>
    refine ⟨_, by rw [step, hp], hset _ _ rfl ?_⟩
    rw [dif_pos h.isLt, hp]
    exact Nat.lt_succ_self _
  | park =>
    have hf := hi.fits h
    rw [hp] at hf
    exact absurd h.isLt (Nat.not_lt.2 hf)
  | panic => exact absurd hp (hi.not_panic hok h)
  | scheduler tp =>
    rw [hp] at hb
    cases hb
  | run tp todo =>
    cases todo with
    | nil =>
      refine ⟨_, by rw [step, hp], hset _ _ rfl ?_⟩
      rw [hp]
      exact Nat.one_pos
    | cons x xs =>
      cases hx : exec progs m tp x with
      | done m₁ =>
        refine ⟨m₁.goto h (.run tp xs), by rw [step, hp]; simp only [hx], hset _ _ (exec_point hx) ?_⟩
        rw [hp]
        exact Nat.lt_succ_self _
      | waits => exact absurd hx (hgo tp x xs hp)
      | panics =>
        -- it would stand in `panic` then
        have hs : step progs m h (m.quiet h) = some (m.goto h .panic) := by
          rw [step, hp]
          simp only [hx]
        have hi' := inv_reachable (hr.next (a := (h.val, m.quiet h)) hs)
        exact absurd (point_goto_self m h .panic) (hi'.not_panic hok h)

/-- While the others wait, nothing holds hart 0 up. -/
theorem Inv.not_waits_zero (hi : Inv progs m) (hinit : m.init = false)
    (hp : m.point 0 = .run tp (x :: xs)) : exec progs m tp x ≠ .waits := by
  intro hx
  obtain ⟨htp, hs, -⟩ := hi.run hp
  obtain rfl : tp = 0 := Fin.ext htp
  rcases exec_waits hx with ⟨rfl, -⟩ | ⟨rfl, h, hh, hl⟩
  · rcases publish_suffix hs with ⟨h, -⟩ | ⟨-, h, -⟩
    · cases h
    · exact h rfl
  · cases hi.stage with
    | reset _ hp₀ =>
      rcases hp₀ with hp₀ | hp₀
      · cases hp.symm.trans hp₀
      · obtain ⟨-, hxs⟩ := Point.run.inj (hp.symm.trans hp₀)
        cases hxs
    | alone _ _ _ _ hown =>
      -- the lock would be the hart's that is inside `printf`
      have h0 : h.val ≠ 0 := fun h' => hh (Fin.ext h')
      have hbusy := (((hown h).lock _).1 hl).2
      rw [(hi.fits h).not_busy (hi.waits hinit h h0)] at hbusy
      cases hbusy
    | stopped _ hp₀ => cases hp.symm.trans hp₀
    | released hinit' => exact absurd (hinit'.symm.trans hinit) (by simp)

/-- A hart inside `printf` goes on. -/
theorem not_waits_of_busy (hb : inSection (x :: xs) = true) : exec progs m tp x ≠ .waits := by
  intro hx
  rcases exec_waits hx with ⟨rfl, -⟩ | ⟨rfl, -⟩ <;> cases hb

/-- A hart that schedules gives `print_lock` back. -/
theorem exists_release (hview : (Sched.system NCPU).Reachable m.view)
    (hp : m.point h = .scheduler h) (hl : m.sched.locks .print = some h) :
    ∃ m', step progs m h (m.quiet h) = some m' ∧ m'.left = m.left ∧ m'.held < m.held := by
  have hi := Sched.inv_reachable hview
  have hB : (m.point h).boots = false := by
    rw [hp]
    rfl
  have hl' : m.view.locks .print = some h :=
    (m.sched.locks_mask_iff (fun h => (m.point h).boots) hB).2 hl
  obtain ⟨l, k, hpc⟩ := Sched.Pc.exists_rel (hi.wf h) ((Sched.ordered_reachable hview).pcOf h)
    ((hi.lock h .print).1 hl')
  obtain ⟨v, hgo, hpk, hlocks⟩ := Sched.go_rel hi hpc
  -- what the view allows, the machine does
  have hgo' : (Sched.go m.sched h .go).map (·.mask fun h => (m.point h).boots) = some v := by
    rw [← Sched.go_mask hB fun l' k' h' => by cases hpc.symm.trans h']
    exact hgo
  obtain ⟨s, hs, hv⟩ := Option.map_eq_some_iff.1 hgo'
  refine ⟨m.follow h s (m.quiet h).effect, ?_, rfl, ?_⟩
  · rw [step, hp]
    simp only [Machine.quiet, Sched.next, hs, Option.map_some]
  · have hview' : (m.follow h s (m.quiet h).effect).view = v := hv
    have hheld : m.held = k.rels + 1 := by
      rw [Machine.held, hl']
      simp only [hpc, Sched.Pc.rels]
    rw [hheld, Machine.held, hview', hlocks]
    by_cases hl₁ : l = .print
    · subst hl₁
      rw [Function.update_self]
      exact Nat.succ_pos _
    · rw [Function.update_of_ne (Ne.symm hl₁), hl']
      simp only [hpk]
      exact Nat.lt_succ_self _

theorem exists_nearer (hr : (system L progs).Reachable m) (hok : Succeeds L progs)
    (hnot : ¬∀ h : Hart, m.point h = .scheduler h) :
    ∃ (a : Nat × Act L) (m' : Machine L), step progs m a.1 a.2 = some m' ∧
      toLex (m'.left, m'.held) < toLex (m.left, m.held) := by
  have hi := inv_reachable hr
  have hlex : ∀ {h : Hart}, (∃ m', step progs m h (m.quiet h) = some m' ∧ m'.left < m.left) →
      ∃ (a : Nat × Act L) (m' : Machine L), step progs m a.1 a.2 = some m' ∧
        toLex (m'.left, m'.held) < toLex (m.left, m.held) := by
    rintro h ⟨m', hs, hlt⟩
    exact ⟨(h, m.quiet h), m', hs, Prod.Lex.toLex_lt_toLex.2 (.inl hlt)⟩
  have hsched : ∀ {h : Hart}, (m.point h).boots = false → m.point h = .scheduler h := by
    intro h hb
    have hf := hi.fits h
    cases hp : m.point h with
    | scheduler t =>
      rw [hp] at hf
      rw [Fin.ext hf.1]
    | _ =>
      rw [hp] at hb
      cases hb
  cases hinit : m.init with
  | false =>
    refine hlex (exists_advance (h := 0) hr hok ?_ fun tp x xs hp => hi.not_waits_zero hinit hp)
    cases hi.stage with
    | reset _ hp => rcases hp with hp | hp <;> rw [show m.point (0 : Hart) = _ from hp] <;> rfl
    | alone _ hp => rw [show m.point (0 : Hart) = _ from hp]; rfl
    | stopped _ hp => rw [show m.point (0 : Hart) = _ from hp]; rfl
    | released h => exact absurd (h.symm.trans hinit) (by simp)
  | true =>
    cases hi.stage with
    | reset h | alone h | stopped h => exact absurd (h.symm.trans hinit) (by simp)
    | released _ _ _ hown hview =>
      obtain ⟨h, hh⟩ := not_forall.1 hnot
      have hb : (m.point h).boots = true := by
        by_contra hb
        exact hh (hsched (by simpa using hb))
      by_cases hgo : ∀ tp x xs, m.point h = .run tp (x :: xs) → exec progs m tp x ≠ .waits
      · exact hlex (exists_advance hr hok hb hgo)
      -- some hart has `print_lock`
      · simp only [not_forall, not_not] at hgo
        obtain ⟨tp, x, xs, hp, hx⟩ := hgo
        obtain ⟨-, h'⟩ | ⟨-, h', -, hl⟩ := exec_waits hx
        · exact absurd (h'.symm.trans hinit) (by simp)
        · cases hb' : (m.point h').boots with
          | true =>
            refine hlex (exists_advance hr hok hb' fun tp x xs hp' => ?_)
            have hbusy := (((hown h' hb').lock _).1 hl).2
            rw [hp'] at hbusy
            exact not_waits_of_busy hbusy
          | false =>
            obtain ⟨m', hs, hleft, hheld⟩ := exists_release hview (hsched hb') hl
            exact ⟨(h', m.quiet h'), m', hs, Prod.Lex.toLex_lt_toLex.2 (.inr ⟨hleft, hheld⟩)⟩

theorem exists_joined (hr : (system L progs).Reachable m) (hok : Succeeds L progs) :
    ∃ as m', Lts.exec (fun m (a : Nat × Act L) => step progs m a.1 a.2) as m = some m' ∧
      (system L progs).Reachable m' ∧ ∀ h : Hart, m'.point h = .scheduler h := by
  refine Lts.exec_descend (fun m : Machine L => toLex (m.left, m.held)) ?_ hr
  intro m hr hnot
  obtain ⟨a, m', hs, hlt⟩ := exists_nearer hr hok hnot
  exact ⟨a, m', hs, hr.next hs, hlt⟩

theorem Inv.init_of_scheduler (hi : Inv progs m) (hp : m.point h = .scheduler tp) :
    m.init = true := by
  by_contra hinit
  rw [Bool.not_eq_true] at hinit
  by_cases h0 : h.val = 0
  · rw [h0] at hp
    cases hi.stage with
    | reset _ hp₀ => rcases hp₀ with hp₀ | hp₀ <;> cases hp.symm.trans hp₀
    | alone _ hp₀ | stopped _ hp₀ => cases hp.symm.trans hp₀
    | released h => exact absurd (h.symm.trans hinit) (by simp)
  · have hw := hi.waits hinit h h0
    rw [hp] at hw
    cases hw

/-! ## The results -/

/-- A machine out of reset. -/
def resetMachine (L : Layout) : Machine L where
  init := false
  kernel := .start L fun _ => 0
  sched := Sched.boot NCPU
  id _ := 0
  satp _ := 0
  stvec _ := 0
  console := []
  point _ := .entry

theorem reset_resetMachine : Reset (resetMachine L) := ⟨rfl, rfl, fun _ => rfl, fun _ => rfl⟩

/-- **Hart 0 is alone until `init` is set.**  A step of another hart moves that hart, which has not
passed `while(!init)` then, and may write its `satp`.  All else is as before. -/
theorem boot_gate (hr : (system L progs).Reachable m) (hinit : m.init = false) {i : Nat} (h0 : i ≠ 0)
    {a : Act L} (hs : step progs m i a = some m') :
    ∃ p satp, m' = { m.goto i p with satp := satp } ∧ p.Waits ∧
      ∀ h : Hart, h.val ≠ i → satp h = m.satp h := by
  have hi := inv_reachable hr
  have hm := step_move hs
  obtain ⟨p, satp, rfl, hsatp⟩ := hi.move_waiting hinit h0 hm
  refine ⟨p, satp, rfl, ?_, hsatp⟩
  have hw := hi.waits_move hm hinit h0
  rwa [show (m.goto i p).point i = p from point_goto_self _ _ _] at hw

/-- Hart 1 has come out of reset and clears its `satp` in `boot`, while hart 0 has not even begun. -/
theorem boot_gate_satp : ∃ m m' : Machine Vm.tinyLayout,
    (system Vm.tinyLayout Vm.tinyPrograms).Reachable m ∧ m.init = false ∧
      step Vm.tinyPrograms m 1 (m.quiet 1) = some m' ∧ m.satp 1 = 7 ∧ m'.satp 1 = 0 ∧
      ∃ p satp, m' = { m.goto 1 p with satp := satp } ∧ p.Waits ∧
        ∀ h : Hart, h.val ≠ 1 → satp h = m.satp h := by
  have hr : (system Vm.tinyLayout Vm.tinyPrograms).Reachable
      { resetMachine Vm.tinyLayout with satp := fun _ => 7 } :=
    .start ⟨rfl, rfl, fun _ => rfl, fun _ => rfl⟩
  have hr' := hr.next (a := (1, (resetMachine _).quiet 1)) rfl
  refine ⟨_, _, hr', rfl, rfl, rfl, rfl, ?_⟩
  exact boot_gate hr' rfl (by decide) (a := (resetMachine _).quiet 1) rfl

/-- **The harts join the schedulers one by one.**  The step that sets `init` is hart 0's: it hands
over memory and `proctable` as `Wl00.Vm` begins with them, and schedulers as `Wl00.Sched` begins
with them.  From then on no hart is in a panic, the harts that schedule make a run of `Wl00.Sched`
in which the others do not show, and there is one `proctable` for both.  A step of a hart that
still boots leaves memory and `proctable` alone; when it comes to `scheduler` it has its number,
the page table that hart 0 has made and its trap vector. -/
theorem boot_refines (hr : (system L progs).Reachable m) :
    (m.init = false → ∀ i a m', step progs m i a = some m' → m'.init = true →
      i = 0 ∧ (Vm.system L progs).init m'.kernel ∧ (Sched.system NCPU).init m'.view) ∧
    (m.init = true → (Sched.system NCPU).Reachable m.view ∧
      m.kernel.Shows m.view.rows m.view.currPid ∧
      (∀ i, m.point i ≠ .panic ∧ ∀ tp, m.point i = .scheduler tp → tp.val = i ∧ m.id tp = i) ∧
      ∀ i a m', step progs m i a = some m' → m'.kernel.kptable = m.kernel.kptable ∧
        (m'.view = m.view ∧ m'.kernel = m.kernel ∨
          ∃ tp, m.point i = .scheduler tp ∧ Sched.next m.view tp a.choice = some m'.view) ∧
        ∀ tp, m'.point i = .scheduler tp → m.point i ≠ .scheduler tp →
          m'.satp tp = makeSatp m'.kernel.kptable ∧ m'.stvec tp = L.kerneltrap) := by
  have hi := inv_reachable hr
  refine ⟨fun hinit i a m' hs => hi.handover hinit (step_move hs), fun hinit => ?_⟩
  cases hi.stage with
  | reset h | alone h | stopped h => exact absurd (h.symm.trans hinit) (by simp)
  | released _ _ hpanic _ hview hrows =>
    refine ⟨hview, hrows, fun i => ⟨hpanic i, fun tp hp => ?_⟩, fun i a m' hs => ⟨?_, ?_, ?_⟩⟩
    · have hf := hi.fits i
      rw [hp] at hf
      obtain ⟨rfl, hid⟩ := hf
      exact ⟨rfl, hid⟩
    · exact hi.kptable_move hinit (step_move hs)
    · exact hi.view_move hinit (step_move hs)
    · exact fun tp hp' hp => hi.joined (step_move hs) hp' hp

theorem succeeds_tiny : Succeeds Vm.tinyLayout Vm.tinyPrograms :=
  succeeds_of_room Vm.tinyImage_accepts Vm.roomy_tiny

theorem boot_refines_all : ∃ m : Machine Vm.tinyLayout, (∀ h : Hart, m.point h = .scheduler h) ∧
    (Sched.system NCPU).Reachable m.view := by
  have hr : (system Vm.tinyLayout Vm.tinyPrograms).Reachable (resetMachine _) :=
    .start reset_resetMachine
  obtain ⟨as, m, -, hr', hall⟩ := exists_joined hr succeeds_tiny
  exact ⟨m, hall, ((boot_refines hr').2 ((inv_reachable hr').init_of_scheduler (hall 0))).1⟩

/-- **Boot comes to an end.**  With room for `init`, no interleaving leads a hart to a panic before
its scheduler, and from wherever the harts are, all of them can get there. -/
theorem boot_joins (hacc : Accepts progs.init) (hroom : Roomy progs.init (InRange L) 2052)
    (hr : (system L progs).Reachable m) : (∀ i, m.point i ≠ .panic) ∧
      ∃ as m', Lts.exec (fun m (a : Nat × Act L) => step progs m a.1 a.2) as m = some m' ∧
        m'.init = true ∧ ∀ h : Hart, m'.point h = .scheduler h := by
  have hok := succeeds_of_room hacc hroom
  refine ⟨(inv_reachable hr).not_panic hok, ?_⟩
  obtain ⟨as, m', he, hr', hall⟩ := exists_joined hr hok
  exact ⟨as, m', he, (inv_reachable hr').init_of_scheduler (hall 0), hall⟩

theorem boot_joins_tiny : ∃ as m', Lts.exec (fun m (a : Nat × Act Vm.tinyLayout) =>
    step Vm.tinyPrograms m a.1 a.2) as (resetMachine Vm.tinyLayout) = some m' ∧ m'.init = true ∧
      ∀ h : Hart, m'.point h = .scheduler h :=
  (boot_joins Vm.tinyImage_accepts Vm.roomy_tiny (.start reset_resetMachine)).2

end Wl00.Boot
