import Wl00.Boot.Statements

/-!
# The harts join one by one

* `Stage` — how far hart 0 is, and what that says of the machine.
* `Inv` — where the harts can be, what they have set up, and the stage.
* `inv_reachable` — it holds in every interleaving.
-/

namespace Wl00.Boot

open Vm (Layout Kernel KernelM Programs NCPU Hart Ends makeSatp)
open Sched (Slot Lock NPROC)

variable {L : Layout} {progs : Programs}

/-! ## Where the harts are -/

/-- Hart `i` can be there: it has its own number, and what it has still to do is the end of its
program.  Its `satp` and `stvec` are what it has set up until it schedules. -/
def Point.Fits (m : Machine L) (i : Nat) : Point → Prop
  | .entry | .panic => True
  | .park => NCPU ≤ i
  | .run tp todo => tp.val = i ∧ todo <:+ program tp ∧ Ready m tp todo
  | .scheduler tp => tp.val = i ∧ m.id tp = tp

/-- The hart has not passed `while(!init)`. -/
def Point.Waits : Point → Prop
  | .entry | .park => True
  | .run _ todo => .waitInit ∈ todo
  | _ => False

/-- How far hart 0 is. -/
inductive Stage (progs : Programs) (m : Machine L) : Prop
  /-- `.bss` may be anything. -/
  | reset (hinit : m.init = false) (hp : m.point 0 = .entry ∨ m.point 0 = .run 0 (program 0))
      (hsie : ∀ h, (m.sched.cpus h).sie = false) (hpid : m.kernel.currPid = 1)
  /-- Hart 0 is the only one that does anything. -/
  | alone {todo : List Stmt} (hinit : m.init = false) (hp : m.point 0 = .run 0 todo)
      (hpub : .publish ∈ todo) (hbss : .zeroBss ∉ todo)
      (hown : ∀ h : Hart, Own m.sched h (m.point h).busy) (hcproc : ∀ h, m.sched.cproc h = none)
      (hticks : m.sched.ticks = 0)
      (hk : ∃ bytes, Vm.boot progs (Kernel.start L bytes) = rest progs todo m.kernel)
  | stopped (hinit : m.init = false) (hp : m.point 0 = .panic)
      (hk : ∃ bytes e, Vm.boot progs (Kernel.start L bytes) = .error e)
  /-- The others have been let go. -/
  | released (hinit : m.init = true) (hp : m.point 0 = .run 0 [] ∨ m.point 0 = .scheduler 0)
      (hpanic : ∀ i, m.point i ≠ .panic)
      (hown : ∀ h : Hart, (m.point h).boots = true → Own m.sched h (m.point h).busy)
      (hview : (Sched.system NCPU).Reachable m.view)
      (hrows : m.kernel.Shows m.view.rows m.view.currPid)

structure Inv (progs : Programs) (m : Machine L) : Prop where
  fits : ∀ i, (m.point i).Fits m i
  waits : m.init = false → ∀ i, i ≠ 0 → (m.point i).Waits
  stage : Stage progs m

theorem inv_reset {m : Machine L} (hr : Reset m) : Inv progs m := by
  refine ⟨fun i => ?_, fun _ i _ => ?_, .reset hr.init (.inl (hr.point 0)) hr.sie hr.currPid⟩
  · rw [hr.point i]
    trivial
  · rw [hr.point i]
    trivial

section Inv

variable {m m' : Machine L} {i : Nat} {a : Act L} {tp : Hart} {x : Stmt} {todo xs : List Stmt}

theorem Inv.run (hi : Inv progs m) (hp : m.point i = .run tp todo) :
    tp.val = i ∧ todo <:+ program tp ∧ Ready m tp todo := by
  have h := hi.fits i
  rw [hp] at h
  exact h

/-- A hart that waits has set nothing up. -/
theorem ready_of_waits (hs : todo <:+ program tp) (hw : .waitInit ∈ todo) : Ready m tp todo := by
  cases todo with
  | nil => cases hw
  | cons x xs =>
    obtain ⟨-, h₁, h₂, h₃⟩ := wait_suffix hs hw
    exact ⟨fun h => absurd (.tail _ h₁) h, fun h => absurd (.tail _ h₂) h,
      fun h => absurd (.tail _ h₃) h⟩

theorem not_busy_of_waits (hs : todo <:+ program tp) (hw : .waitInit ∈ todo) :
    inSection todo = false := by
  cases todo with
  | nil => cases hw
  | cons x xs => obtain ⟨⟨rfl, -⟩ | rfl, -⟩ := wait_suffix hs hw <;> rfl

/-- While hart 0 is at work, it has `init = 1` still to do. -/
theorem Inv.init_of_zero (hi : Inv progs m) (hp : m.point 0 = .run 0 (x :: xs)) :
    m.init = false := by
  cases hi.stage with
  | reset h | alone h | stopped h => exact h
  | released _ h => rcases h with h | h <;> cases hp.symm.trans h

/-- What only hart 0 does comes before `init` is set. -/
theorem Inv.init_of_exec (hi : Inv progs m) (hp : m.point i = .run tp (x :: xs))
    (hx : x = .zeroBss ∨ x = .initKptable) : i = 0 ∧ m.init = false := by
  obtain ⟨rfl, hs, -⟩ := hi.run hp
  have htp : tp = 0 := by
    by_contra h
    obtain ⟨-, h₁, -, h₂, -⟩ := mate_suffix hs h
    rcases hx with rfl | rfl
    · exact h₁ rfl
    · exact h₂ rfl
  subst htp
  exact ⟨rfl, hi.init_of_zero hp⟩

/-! ### Every hart has its place -/

/-- The others stay where they are, as ready as they were. -/
theorem Inv.fits_exec (hi : Inv progs m) (hp : m.point i = .run tp (x :: xs))
    (hx : exec progs m tp x = .done m') (j : Nat) :
    ((m'.goto i (.run tp xs)).point j).Fits (m'.goto i (.run tp xs)) j := by
  obtain ⟨hti, hs, hr⟩ := hi.run hp
  by_cases hj : j = i
  · subst hj
    rw [point_goto_self]
    exact ⟨hti, (List.suffix_cons x xs).trans hs, ⟨(hr.exec hs hx).id, (hr.exec hs hx).satp,
      (hr.exec hs hx).stvec⟩⟩
  · rw [point_goto_ne _ _ hj, exec_point hx]
    have hf := hi.fits j
    have hne : ∀ {t : Hart}, t.val = j → t ≠ tp := by
      rintro t ht rfl
      exact hj (ht.symm.trans hti)
    cases hpj : m.point j with
    | entry | panic => trivial
    | park =>
      rw [hpj] at hf
      exact hf
    | run t ys =>
      rw [hpj] at hf
      obtain ⟨ht, hys, hry⟩ := hf
      have hr' : Ready m' t ys := by
        by_cases hx' : x = .zeroBss ∨ x = .initKptable
        · obtain ⟨hi0, hinit⟩ := hi.init_of_exec hp hx'
          have hw := hi.waits hinit j (by omega)
          rw [hpj] at hw
          exact ready_of_waits hys hw
        · rw [not_or] at hx'
          exact hry.other (hne ht) hx hx'.1 hx'.2
      exact ⟨ht, hys, ⟨hr'.id, hr'.satp, hr'.stvec⟩⟩
    | scheduler t =>
      rw [hpj] at hf
      obtain ⟨ht, hid⟩ := hf
      have hz : x ≠ .zeroBss := by
        intro hz
        obtain ⟨hi0, hinit⟩ := hi.init_of_exec hp (.inl hz)
        have hw := hi.waits hinit j (by omega)
        rw [hpj] at hw
        cases hw
      exact ⟨ht, (exec_regs hx hz (hne ht)).1.trans hid⟩

/-- What the hart has set up, and `kptable`, are as before. -/
theorem Point.Fits.of_regs {j : Nat} {p : Point} (hf : p.Fits m j)
    (hk : m'.kernel.kptable = m.kernel.kptable) (hid : m'.id = m.id)
    (hregs : ∀ h : Hart, h.val = j → p.boots = true → m'.satp h = m.satp h ∧ m'.stvec h = m.stvec h) :
    p.Fits m' j := by
  cases p with
  | entry | panic => trivial
  | park => exact hf
  | run t ys =>
    obtain ⟨ht, hs, hr⟩ := hf
    obtain ⟨hsatp, hstvec⟩ := hregs t ht rfl
    exact ⟨ht, hs, by rw [hid]; exact hr.id, by rw [hsatp, hk]; exact hr.satp,
      by rw [hstvec]; exact hr.stvec⟩
  | scheduler t => exact ⟨hf.1, by rw [hid]; exact hf.2⟩

theorem Inv.fits_goto (hi : Inv progs m) {p : Point} (hp : p.Fits m i) (j : Nat) :
    ((m.goto i p).point j).Fits (m.goto i p) j := by
  by_cases hj : j = i
  · subst hj
    rw [point_goto_self]
    exact hp.of_regs rfl rfl fun _ _ _ => ⟨rfl, rfl⟩
  · rw [point_goto_ne _ _ hj]
    exact (hi.fits j).of_regs rfl rfl fun _ _ _ => ⟨rfl, rfl⟩

theorem Inv.fits_move (hi : Inv progs m) (hm : Move progs m i a m') (j : Nat) :
    (m'.point j).Fits m' j := by
  cases hm with
  | enter hp hlt =>
    refine hi.fits_goto (p := .run ⟨i, hlt⟩ _) ⟨rfl, List.suffix_rfl, ?_⟩ j
    by_cases h0 : (⟨i, hlt⟩ : Hart) = 0
    · rw [h0]
      exact ⟨fun h => absurd (by decide) h, fun h => absurd (by decide) h,
        fun h => absurd (by decide) h⟩
    · refine ready_of_waits List.suffix_rfl ?_
      rw [program, if_neg h0]
      simp
  | park hp hge => exact hi.fits_goto (p := .park) hge j
  | exec hp hx => exact hi.fits_exec hp hx j
  | panic hp hx => exact hi.fits_goto (p := .panic) trivial j
  | join hp =>
    obtain ⟨hti, -, hr⟩ := hi.run hp
    exact hi.fits_goto (p := .scheduler _) ⟨hti, hr.id (by simp)⟩ j
  | @sched tp s hp hn =>
    refine (hi.fits j).of_regs rfl rfl fun h hh hb => ?_
    -- its own registers are those of a hart that does not boot
    have hne : h ≠ tp := by
      rintro rfl
      have hf := hi.fits i
      rw [hp] at hf
      rw [← hh, hf.1, hp] at hb
      cases hb
    exact ⟨Function.update_of_ne hne _ _, Function.update_of_ne hne _ _⟩

/-! ### Nobody passes before `init` is set -/

theorem waits_program (h : tp ≠ 0) : (Point.run tp (program tp)).Waits := by
  change .waitInit ∈ program tp
  rw [program, if_neg h]
  simp

theorem Inv.waits_goto (hi : Inv progs m) {p : Point} (hinit : m.init = false)
    (hp : i ≠ 0 → p.Waits) {j : Nat} (hj : j ≠ 0) : ((m.goto i p).point j).Waits := by
  by_cases hji : j = i
  · subst hji
    rw [point_goto_self]
    exact hp hj
  · rw [point_goto_ne _ _ hji]
    exact hi.waits hinit j hj

theorem Inv.waits_move (hi : Inv progs m) (hm : Move progs m i a m') (hinit : m'.init = false)
    {j : Nat} (hj : j ≠ 0) : (m'.point j).Waits := by
  cases hm with
  | enter hp hlt =>
    refine hi.waits_goto hinit (fun h0 => waits_program ?_) hj
    rintro h
    exact h0 (congrArg Fin.val h)
  | park hp hge => exact hi.waits_goto (p := .park) hinit (fun _ => trivial) hj
  | @exec tp x xs m' hp hx =>
    have hpub : x ≠ .publish := by
      rintro rfl
      cases hx
      cases hinit
    have hm : m.init = false := (exec_init hx hpub).symm.trans hinit
    by_cases hji : j = i
    · -- it has not come through the loop
      subst hji
      rw [point_goto_self]
      have hw := hi.waits hm j hj
      rw [hp] at hw
      obtain ⟨⟨-, h⟩ | rfl, -⟩ := wait_suffix (hi.run hp).2.1 hw
      · exact h
      · rw [Boot.exec, hm] at hx
        cases hx
    · rw [point_goto_ne _ _ hji, exec_point hx]
      exact hi.waits hm j hj
  | panic hp hx =>
    refine hi.waits_goto hinit (fun h0 => ?_) hj
    have hw := hi.waits hinit i h0
    rw [hp] at hw
    obtain ⟨⟨rfl, -⟩ | rfl, -⟩ := wait_suffix (hi.run hp).2.1 hw
    · cases hx
    · rw [Boot.exec, show m.init = false from hinit] at hx
      cases hx
  | join hp =>
    refine hi.waits_goto hinit (fun h0 => ?_) hj
    have hw := hi.waits hinit i h0
    rw [hp] at hw
    cases hw
  | sched hp hn => exact hi.waits hinit j hj

/-! ### Before `init` is set -/

/-- A hart that waits is not inside `printf`. -/
theorem Point.Fits.not_busy {p : Point} (hf : p.Fits m i) (hw : p.Waits) : p.busy = false := by
  cases p with
  | run t ys => exact not_busy_of_waits hf.2.1 hw
  | _ => rfl

/-- A hart that waits writes nothing but its own `satp`. -/
theorem Inv.move_waiting (hi : Inv progs m) (hinit : m.init = false) (h0 : i ≠ 0)
    (hm : Move progs m i a m') : ∃ p satp, m' = { m.goto i p with satp := satp } ∧
      ∀ h : Hart, h.val ≠ i → satp h = m.satp h := by
  have hw := hi.waits hinit i h0
  cases hm with
  | enter hp hlt => exact ⟨_, m.satp, rfl, fun _ _ => rfl⟩
  | park hp hge => exact ⟨_, m.satp, rfl, fun _ _ => rfl⟩
  | exec hp hx =>
    rw [hp] at hw
    obtain ⟨htp, hs, -⟩ := hi.run hp
    obtain ⟨⟨rfl, -⟩ | rfl, -⟩ := wait_suffix hs hw
    · cases hx
      refine ⟨_, _, rfl, fun h hh => Function.update_of_ne ?_ _ _⟩
      rintro rfl
      exact hh htp
    · rw [Boot.exec, hinit] at hx
      cases hx
  | panic hp hx =>
    rw [hp] at hw
    obtain ⟨⟨rfl, -⟩ | rfl, -⟩ := wait_suffix (hi.run hp).2.1 hw
    · cases hx
    · rw [Boot.exec, hinit] at hx
      cases hx
  | join hp =>
    rw [hp] at hw
    cases hw
  | sched hp hn =>
    rw [hp] at hw
    cases hw

theorem Inv.stage_waiting (hi : Inv progs m) (hinit : m.init = false) (h0 : i ≠ 0)
    (hm : Move progs m i a m') : Stage progs m' := by
  obtain ⟨p, satp, rfl, -⟩ := hi.move_waiting hinit h0 hm
  have hp0 : (m.goto i p).point 0 = m.point 0 := point_goto_ne _ _ h0.symm
  cases hi.stage with
  | reset _ hp hsie hpid =>
    refine .reset hinit ?_ hsie hpid
    rw [← hp0] at hp
    exact hp
  | alone _ hp hpub hbss hown hcproc hticks hk =>
    refine .alone hinit (hp0.trans hp) hpub hbss (fun h => ?_) hcproc hticks hk
    by_cases hh : h.val = i
    · -- it was not inside `printf`, and it is not there now
      have h₁ := (hi.fits_move hm h).not_busy (hi.waits_move hm hinit (by omega))
      have h₂ := (hi.fits h).not_busy (hi.waits hinit h (by omega))
      rw [h₁, ← h₂]
      exact hown h
    · have hph : (m.goto i p).point h = m.point h := point_goto_ne _ _ hh
      have ho := hown h
      rw [← hph] at ho
      exact ho
  | stopped _ hp hk => exact .stopped hinit (hp0.trans hp) hk
  | released h => exact absurd (h.symm.trans hinit) (by simp)

/-- The state that `zeroBss` leaves -/
theorem Inv.stage_zeroBss (hi : Inv progs m) (hinit : m.init = false)
    (hp : m.point 0 = .run 0 (.zeroBss :: xs)) (hsie : ∀ h, (m.sched.cpus h).sie = false)
    (hpid : m.kernel.currPid = 1) : Stage progs ((zeroBss m).goto 0 (.run 0 xs)) := by
  have hs := (hi.run hp).2.1
  obtain ⟨-, hxs⟩ := (zeroBss_suffix hs).2 rfl
  refine .alone hinit (point_goto_self _ _ _) ?_ (zeroBss_suffix hs).1 (fun h => ?_)
    (fun _ => rfl) rfl ⟨m.kernel.mem.bytes, ?_⟩
  · rw [hxs]
    decide
  · have hb : (((zeroBss m).goto 0 (.run 0 xs)).point h).busy = false := by
      by_cases hh : h.val = 0
      · rw [hh, point_goto_self, hxs]
        decide
      · rw [point_goto_ne _ _ hh]
        exact (hi.fits h).not_busy (hi.waits hinit h hh)
    rw [hb]
    refine ⟨?_, fun l => ?_⟩
    · change (⟨0, false, (m.sched.cpus h).sie⟩ : Spinlock.Cpu) = _
      rw [hsie]
      rfl
    · simp [zeroBss, Machine.goto]
  · have hk : ((zeroBss m).goto 0 (.run 0 xs)).kernel = Kernel.start L m.kernel.mem.bytes := by
      change { Kernel.start L m.kernel.mem.bytes with currPid := m.kernel.currPid } = _
      rw [hpid]
      rfl
    rw [hk, hxs, rest_program]

/-- One statement of hart 0, with the others waiting -/
theorem Inv.stage_alone (hi : Inv progs m) (hinit : m.init = false)
    (hp : m.point 0 = .run 0 (x :: xs)) (hbss : .zeroBss ∉ x :: xs)
    (hown : ∀ h : Hart, Own m.sched h (m.point h).busy) (hcproc : ∀ h, m.sched.cproc h = none)
    (hticks : m.sched.ticks = 0) (hx : exec progs m 0 x = .done m') (hpub : x ≠ .publish)
    (hk : ∃ bytes, Vm.boot progs (Kernel.start L bytes) = rest progs (x :: xs) m.kernel)
    (hnext : .publish ∈ xs) : Stage progs (m'.goto 0 (.run 0 xs)) := by
  have hs := (hi.run hp).2.1
  have hz : x ≠ .zeroBss := fun h => hbss (h ▸ .head _)
  have ho : Own m.sched 0 (inSection (x :: xs)) := by
    have h := hown 0
    rwa [show m.point (0 : Hart) = _ from hp] at h
  -- no lock but `print_lock` is taken
  have hfree : ∀ l, x.inits l = true → m.sched.locks l = none := by
    intro l hl
    rw [Option.eq_none_iff_forall_ne_some]
    intro h hh
    obtain ⟨rfl, -⟩ := ((hown h).lock l).1 hh
    cases x <;> cases hl
  have hsh := exec_shares hs ho hfree (fun _ => hticks) hz hpub hx
  have hmask := hsh.mask (fun _ => true) rfl
  refine .alone ((exec_init hx hpub).trans hinit) (point_goto_self _ _ _) hnext
    (fun h => hbss (.tail _ h)) (fun h => ?_) (fun h => ?_) ?_ ?_
  · by_cases hh : h = 0
    · subst hh
      rw [show (m'.goto 0 (.run 0 xs)).point (0 : Hart) = .run 0 xs from point_goto_self _ _ _]
      exact hsh.self
    · have h0 : h.val ≠ 0 := fun h' => hh (Fin.ext h')
      rw [point_goto_ne _ _ h0, exec_point hx]
      exact hsh.other h hh _ (hown h)
  · exact (congrFun (congrArg Sched.State.cproc hmask) h).trans (hcproc h)
  · exact (congrArg Sched.State.ticks hmask).trans hticks
  · obtain ⟨bytes, hk⟩ := hk
    refine ⟨bytes, hk.trans ?_⟩
    change (x.work progs m.kernel >>= fun r => rest progs xs r.2) = rest progs xs m'.kernel
    rw [exec_kernel hx hz]
    rfl

/-- Without the harts that boot, the machine is as `Wl00.Sched` begins. -/
theorem mask_launch {s : Sched.State NCPU} {k : Kernel L} {B : Hart → Bool}
    (hk : k.Shows Vm.bootRows 2) (hcproc : ∀ h, s.cproc h = none) (hticks : s.ticks = 0)
    (hB : ∀ h, B h = true) : (launch k s).mask B = Sched.boot NCPU := by
  have hprocs : (fun i => slotOf (k.procs i)) = (Sched.boot NCPU).procs := by
    funext i
    have hrow : (k.procs i).row = Vm.bootRows i := congrFun hk.1 i
    have hslot : slotOf (k.procs i) = ⟨(k.procs i).row.pid, (k.procs i).row.state,
      (k.procs i).row.chan, (k.procs i).row.parent, (k.procs i).row.xstate, 0, .none⟩ := rfl
    rw [hslot, hrow, Vm.bootRows]
    by_cases hi : i.val = 0
    · simp only [Sched.boot, if_pos hi]
      rfl
    · simp only [Sched.boot, if_neg hi]
      rfl
  have hlocks : (fun l => (s.locks l).filter fun h => !B h) = fun _ => none := by
    funext l
    simp [hB]
  have hcpus : (fun h => if B h = true then (⟨0, false, false⟩ : Spinlock.Cpu) else s.cpus h) =
      fun _ => ⟨0, false, false⟩ := by
    funext h
    rw [if_pos (hB h)]
  have hc : s.cproc = fun _ => none := funext hcproc
  unfold Sched.State.mask launch
  simp only [hlocks, hcpus, hprocs, hc, hticks, hk.2]
  rfl

/-- `init = 1` hands over a kernel as `Wl00.Vm` begins, and schedulers as `Wl00.Sched` does. -/
theorem Inv.publish (hi : Inv progs m) (hinit : m.init = false)
    (hcproc : ∀ h, m.sched.cproc h = none) (hticks : m.sched.ticks = 0)
    (hk : ∃ bytes, Vm.boot progs (Kernel.start L bytes) = rest progs [.publish] m.kernel)
    (hx : exec progs m 0 .publish = .done m') :
    (Vm.system L progs).init m'.kernel ∧ (m'.goto 0 (.run 0 [])).view = Sched.boot NCPU := by
  cases hx
  obtain ⟨bytes, hk⟩ := hk
  have hboot : Vm.boot progs (Kernel.start L bytes) = .ok ((), m.kernel) := hk
  refine ⟨⟨bytes, hboot⟩, ?_⟩
  refine mask_launch ((Vm.boot_rows progs bytes).of_run hboot) hcproc hticks fun h => ?_
  by_cases hh : h = 0
  · subst hh
    exact congrArg Point.boots (point_goto_self _ _ _)
  · have hv : h.val ≠ 0 := fun h' => hh (Fin.ext h')
    have hw := hi.waits hinit h hv
    rw [point_goto_ne _ _ hv]
    cases hq : m.point h <;> rw [hq] at hw <;> simp_all [Point.boots, Point.Waits]

theorem Inv.stage_publish (hi : Inv progs m) (hinit : m.init = false)
    (hp : m.point 0 = .run 0 [.publish]) (hown : ∀ h : Hart, Own m.sched h (m.point h).busy)
    (hcproc : ∀ h, m.sched.cproc h = none) (hticks : m.sched.ticks = 0)
    (hk : ∃ bytes, Vm.boot progs (Kernel.start L bytes) = rest progs [.publish] m.kernel)
    (hx : exec progs m 0 .publish = .done m') : Stage progs (m'.goto 0 (.run 0 [])) := by
  have hview := (hi.publish hinit hcproc hticks hk hx).2
  cases hx
  have hb : ∀ h, ((m.goto 0 (.run 0 [])).point h).busy = (m.point h).busy ∧
      (m.goto 0 (.run 0 [])).point h ≠ .panic := by
    intro h
    by_cases hh : h = 0
    · subst hh
      rw [point_goto_self, hp]
      simp [Point.busy, inSection]
    · rw [point_goto_ne _ _ hh]
      have hw := hi.waits hinit h hh
      cases hq : m.point h <;> rw [hq] at hw <;> simp_all [Point.Waits]
  refine .released rfl (.inl (point_goto_self _ _ _)) (fun i => (hb i).2) (fun h _ => ?_)
    (.start hview) ⟨rfl, rfl⟩
  have hbusy := (hb h).1
  refine ⟨?_, ?_⟩
  · exact (hown h).cpu.trans (by rw [← hbusy]; rfl)
  · intro l
    exact ((hown h).lock l).trans (by rw [← hbusy]; rfl)

/-! ### After `init` has been set -/

theorem view_goto {p : Point} (hp : i < NCPU → p.boots = (m.point i).boots) :
    (m.goto i p).view = m.view := by
  unfold Machine.view
  change m.sched.mask _ = m.sched.mask _
  congr 1
  funext h
  by_cases hh : h.val = i
  · rw [hh, point_goto_self]
    exact hp (hh ▸ h.isLt)
  · rw [point_goto_ne _ _ hh]

/-- A hart that comes to `scheduler` holds no lock, and its `struct cpu` is clean. -/
theorem mask_join {s : Sched.State NCPU} {B B' : Hart → Bool} (ho : Own s tp false)
    (hB : ∀ h, h ≠ tp → B h = B' h) : s.mask B = s.mask B' := by
  unfold Sched.State.mask
  congr 1
  · funext l
    cases hl : s.locks l with
    | none => rfl
    | some h =>
      have hh : h ≠ tp := by
        rintro rfl
        exact absurd ((ho.lock l).1 hl).2 (by simp)
      simp [Option.filter, hB h hh]
  · funext h
    by_cases hh : h = tp
    · subst hh
      rw [ho.cpu]
      simp
    · rw [hB h hh]

theorem Own.of_step {s s' : Sched.State NCPU} {h : Hart} {b : Bool} (ho : Own s h b)
    (hs : Sched.Step s tp s') (hh : h ≠ tp) : Own s' h b :=
  ⟨(hs.cpus_ne hh).trans ho.cpu, fun l => (hs.locks_ne hh l).trans (ho.lock l)⟩

/-- A hart moves on without a change to what is shared. -/
theorem Inv.stage_goto (hi : Inv progs m) (hinit : m.init = true) {p : Point} (hp : p ≠ .panic)
    (hboots : p.boots = true) (hboots' : (m.point i).boots = true)
    (hbusy : p.busy = (m.point i).busy) (h0 : m.point i ≠ .run 0 []) : Stage progs (m.goto i p) := by
  cases hi.stage with
  | reset h | alone h | stopped h => exact absurd (h.symm.trans hinit) (by simp)
  | released _ hp0 hpanic hown hview hrows =>
    have hi0 : 0 ≠ i := by
      rintro rfl
      rcases hp0 with h | h
      · exact h0 h
      · rw [h] at hboots'
        cases hboots'
    have hview' : (m.goto i p).view = m.view := view_goto fun _ => hboots.trans hboots'.symm
    refine .released hinit ?_ (fun j => ?_) (fun h hh => ?_) ?_ ?_
    · rwa [point_goto_ne _ _ hi0]
    · by_cases hj : j = i
      · subst hj
        rwa [point_goto_self]
      · rw [point_goto_ne _ _ hj]
        exact hpanic j
    · by_cases hj : h.val = i
      · have ho := hown h (hj ▸ hboots')
        rw [hj] at ho ⊢
        rw [point_goto_self, hbusy]
        exact ho
      · rw [point_goto_ne _ _ hj] at hh ⊢
        exact hown h hh
    · rwa [hview']
    · rw [hview']
      exact hrows

theorem Inv.released_ne_zero (hi : Inv progs m) (hinit : m.init = true)
    (hp : m.point i = .run tp (x :: xs)) : tp ≠ 0 := by
  rintro rfl
  obtain ⟨rfl, -⟩ := hi.run hp
  exact absurd ((hi.init_of_zero hp).symm.trans hinit) (by simp)

/-- What a hart that boots may hold when others schedule -/
theorem Inv.own (hi : Inv progs m) (hinit : m.init = true) (hp : m.point i = .run tp todo) :
    Own m.sched tp (inSection todo) := by
  obtain ⟨rfl, -⟩ := hi.run hp
  cases hi.stage with
  | reset h | alone h | stopped h => exact absurd (h.symm.trans hinit) (by simp)
  | released _ _ _ hown =>
    have ho := hown tp (by rw [hp]; rfl)
    rwa [hp] at ho

theorem Inv.shares (hi : Inv progs m) (hinit : m.init = true)
    (hp : m.point i = .run tp (x :: xs)) (hx : exec progs m tp x = .done m') :
    Shares m.sched m'.sched tp (inSection xs) := by
  have hs := (hi.run hp).2.1
  obtain ⟨h₁, h₂, h₃, -, h₅, h₆, -⟩ := mate_suffix hs (hi.released_ne_zero hinit hp)
  refine exec_shares hs (hi.own hinit hp) (fun l hl => ?_) (fun h => absurd h h₅) h₂ h₁ hx
  cases x <;> contradiction

/-- The schedulers do not notice a hart that boots. -/
theorem Inv.view_exec (hi : Inv progs m) (hinit : m.init = true)
    (hp : m.point i = .run tp (x :: xs)) (hx : exec progs m tp x = .done m') :
    (m'.goto i (.run tp xs)).view = m.view := by
  have hboots : (m.point tp).boots = true := by
    rw [(hi.run hp).1, hp]
    rfl
  rw [view_goto fun _ => by rw [exec_point hx, hp]; rfl]
  unfold Machine.view
  rw [exec_point hx]
  exact (hi.shares hinit hp hx).mask _ hboots

theorem Inv.view_join (hi : Inv progs m) (hinit : m.init = true) (hp : m.point i = .run tp []) :
    (m.goto i (.scheduler tp)).view = m.view := by
  obtain ⟨rfl, -⟩ := hi.run hp
  refine mask_join (hi.own hinit hp) fun h hh => ?_
  rw [point_goto_ne _ _ (fun h' => hh (Fin.ext h'))]

/-- What a scheduler does, it does in the view as well. -/
theorem Inv.view_sched (hi : Inv progs m) (hinit : m.init = true) {s : Sched.State NCPU}
    (hp : m.point i = .scheduler tp) (hn : Sched.next m.sched tp a.choice = some s) :
    Sched.next m.view tp a.choice = some (m.follow tp s a.effect).view := by
  cases hi.stage with
  | reset h | alone h | stopped h => exact absurd (h.symm.trans hinit) (by simp)
  | released _ _ _ _ hview =>
    have hB : (m.point tp).boots = false := by
      have h := hi.fits i
      rw [hp] at h
      rw [h.1, hp]
      rfl
    exact Sched.next_mask (B := fun h => (m.point h).boots) hB (Sched.inv_reachable hview) hn

theorem Inv.stage_exec (hi : Inv progs m) (hinit : m.init = true)
    (hp : m.point i = .run tp (x :: xs)) (hx : exec progs m tp x = .done m') :
    Stage progs (m'.goto i (.run tp xs)) := by
  cases hi.stage with
  | reset h | alone h | stopped h => exact absurd (h.symm.trans hinit) (by simp)
  | released _ hp0 hpanic hown hview hrows =>
    have hsh := hi.shares hinit hp hx
    have hview' := hi.view_exec hinit hp hx
    have htp := hi.released_ne_zero hinit hp
    obtain ⟨rfl, hs, -⟩ := hi.run hp
    have h₁ := (mate_suffix hs htp).1
    have hwork := exec_kernel_mate hs htp hx
    have hpt : ∀ j, j ≠ tp.val → (m'.goto tp (.run tp xs)).point j = m.point j := by
      intro j hj
      rw [point_goto_ne _ _ hj, exec_point hx]
    have hv0 : 0 ≠ tp.val := fun h => htp (Fin.ext h.symm)
    refine .released ((exec_init hx h₁).trans hinit) ?_ (fun j => ?_) (fun h hh => ?_) ?_ ?_
    · rwa [hpt 0 hv0]
    · by_cases hj : j = tp.val
      · rw [hj, point_goto_self]
        simp
      · rw [hpt j hj]
        exact hpanic j
    · by_cases hj : h = tp
      · subst hj
        rw [point_goto_self]
        exact hsh.self
      · have hv : h.val ≠ tp.val := fun h' => hj (Fin.ext h')
        rw [hpt h hv] at hh ⊢
        exact hsh.other h hj _ (hown h hh)
    · rwa [hview']
    · rw [hview', show (m'.goto tp (.run tp xs)).kernel = m.kernel from hwork]
      exact hrows

theorem Inv.stage_join (hi : Inv progs m) (hinit : m.init = true) (hp : m.point i = .run tp []) :
    Stage progs (m.goto i (.scheduler tp)) := by
  cases hi.stage with
  | reset h | alone h | stopped h => exact absurd (h.symm.trans hinit) (by simp)
  | released _ hp0 hpanic hown hview hrows =>
    have hview' := hi.view_join hinit hp
    obtain ⟨rfl, -, -⟩ := hi.run hp
    refine .released hinit ?_ (fun j => ?_) (fun h hh => ?_) ?_ ?_
    · by_cases h0 : tp = 0
      · subst h0
        exact .inr (point_goto_self _ _ _)
      · have hv0 : 0 ≠ tp.val := fun h => h0 (Fin.ext h.symm)
        rwa [point_goto_ne _ _ hv0]
    · by_cases hj : j = tp.val
      · rw [hj, point_goto_self]
        simp
      · rw [point_goto_ne _ _ hj]
        exact hpanic j
    · by_cases hj : h.val = tp.val
      · rw [hj, point_goto_self] at hh
        cases hh
      · rw [point_goto_ne _ _ hj] at hh ⊢
        exact hown h hh
    · rwa [hview']
    · rw [hview']
      exact hrows

theorem Inv.stage_sched (hi : Inv progs m) (hinit : m.init = true) {s : Sched.State NCPU}
    (hp : m.point i = .scheduler tp) (hn : Sched.next m.sched tp a.choice = some s) :
    Stage progs (m.follow tp s a.effect) := by
  have hn' := hi.view_sched hinit hp hn
  cases hi.stage with
  | reset h | alone h | stopped h => exact absurd (h.symm.trans hinit) (by simp)
  | released _ hp0 hpanic hown hview hrows =>
    have hf := hi.fits i
    rw [hp] at hf
    refine .released hinit hp0 hpanic (fun h hh => ?_) ?_ ⟨rfl, rfl⟩
    · refine (hown h hh).of_step (Sched.next_step hn) ?_
      rintro rfl
      rw [hf.1, show (m.follow h s a.effect).point i = .scheduler h from hp] at hh
      cases hh
    · exact hview.next (a := ⟨tp, a.choice, Sched.emit m.view tp a.choice⟩) ⟨hn', rfl⟩

theorem inSection_program : ∀ tp, inSection (program tp) = false := by decide

/-- A step when the others have been let go -/
theorem Inv.stage_open (hi : Inv progs m) (hinit : m.init = true) (hm : Move progs m i a m') :
    Stage progs m' := by
  cases hm with
  | enter hp hlt =>
    refine hi.stage_goto hinit (by simp) rfl (by rw [hp]; rfl) ?_ (by rw [hp]; simp)
    rw [hp]
    exact inSection_program _
  | park hp hge =>
    exact hi.stage_goto hinit (by simp) rfl (by rw [hp]; rfl) (by rw [hp]; rfl) (by rw [hp]; simp)
  | exec hp hx => exact hi.stage_exec hinit hp hx
  | panic hp hx =>
    obtain ⟨e, he⟩ := exec_panics (hi.own hinit hp) hx
    cases (work_mate (hi.run hp).2.1 (hi.released_ne_zero hinit hp) m.kernel).symm.trans he
  | join hp => exact hi.stage_join hinit hp
  | sched hp hn => exact hi.stage_sched hinit hp hn

/-- A step of the machine is a step of a scheduler, or it shows neither there nor in memory. -/
theorem Inv.view_move (hi : Inv progs m) (hinit : m.init = true) (hm : Move progs m i a m') :
    m'.view = m.view ∧ m'.kernel = m.kernel ∨
      ∃ tp, m.point i = .scheduler tp ∧ Sched.next m.view tp a.choice = some m'.view := by
  cases hm with
  | enter hp hlt => exact .inl ⟨view_goto fun _ => by rw [hp]; rfl, rfl⟩
  | park hp hge => exact .inl ⟨view_goto fun _ => by rw [hp]; rfl, rfl⟩
  | @exec tp x xs m₁ hp hx =>
    have hk : m₁.kernel = m.kernel :=
      exec_kernel_mate (hi.run hp).2.1 (hi.released_ne_zero hinit hp) hx
    exact .inl ⟨hi.view_exec hinit hp hx, hk⟩
  | panic hp hx => exact .inl ⟨view_goto fun _ => by rw [hp]; rfl, rfl⟩
  | join hp => exact .inl ⟨hi.view_join hinit hp, rfl⟩
  | sched hp hn => exact .inr ⟨_, hp, hi.view_sched hinit hp hn⟩

/-- Nobody writes `kptable` any more. -/
theorem Inv.kptable_move (hi : Inv progs m) (hinit : m.init = true) (hm : Move progs m i a m') :
    m'.kernel.kptable = m.kernel.kptable := by
  rcases hi.view_move hinit hm with ⟨-, hk⟩ | ⟨tp, hp, -⟩
  · rw [hk]
  · cases hm with
    | sched => rfl
    | enter hp' | park hp' | exec hp' | panic hp' | join hp' => cases hp.symm.trans hp'

/-- A hart that comes to `scheduler` has set itself up. -/
theorem Inv.joined (hi : Inv progs m) (hm : Move progs m i a m') (hp' : m'.point i = .scheduler tp)
    (hp : m.point i ≠ .scheduler tp) :
    m'.satp tp = makeSatp m'.kernel.kptable ∧ m'.stvec tp = L.kerneltrap := by
  cases hm with
  | join hrun =>
    obtain ⟨-, -, hr⟩ := hi.run hrun
    rw [point_goto_self] at hp'
    cases hp'
    exact ⟨hr.satp (by simp), hr.stvec (by simp)⟩
  | sched => exact absurd hp' hp
  | enter | park | exec | panic =>
    rw [point_goto_self] at hp'
    cases hp'

/-- The step that sets `init` is hart 0's, and it hands the kernel over. -/
theorem Inv.handover (hi : Inv progs m) (hinit : m.init = false) (hm : Move progs m i a m')
    (hinit' : m'.init = true) :
    i = 0 ∧ (Vm.system L progs).init m'.kernel ∧ m'.view = Sched.boot NCPU := by
  have hstay : m'.init ≠ m.init := by simp [hinit, hinit']
  cases hm with
  | @exec tp x xs m₁ hp hx =>
    obtain rfl : x = .publish := by
      by_contra hne
      have hsame : m₁.init = m.init := exec_init hx hne
      exact hstay hsame
    obtain ⟨hti, hs, -⟩ := hi.run hp
    obtain rfl : tp = 0 := by
      by_contra h
      exact (mate_suffix hs h).1 rfl
    obtain rfl : i = 0 := hti.symm
    obtain ⟨-, rfl⟩ := (publish_suffix hs).resolve_right fun h => h.1 rfl
    cases hi.stage with
    | reset _ hp₀ => rcases hp₀ with h | h <;> cases hp.symm.trans h
    | alone _ hp₀ _ _ _ hcproc hticks hk =>
      obtain ⟨-, rfl⟩ := Point.run.inj (hp.symm.trans hp₀)
      exact ⟨rfl, hi.publish hinit hcproc hticks hk hx⟩
    | stopped _ hp₀ => cases hp.symm.trans hp₀
    | released h => exact absurd (h.symm.trans hinit) (by simp)
  | enter | park | panic | join | sched => exact absurd rfl hstay

/-- A step of hart 0 while the others wait -/
theorem Inv.stage_zero (hi : Inv progs m) (hinit : m.init = false) (hm : Move progs m 0 a m') :
    Stage progs m' := by
  cases hi.stage with
  | reset _ hp₀ hsie hpid =>
    cases hm with
    | enter hp hlt => exact .reset hinit (.inr (point_goto_self _ _ _)) hsie hpid
    | @exec tp x xs m' hp hx =>
      have hp₁ : m.point 0 = .run 0 (program 0) := hp₀.resolve_left (by rw [hp]; simp)
      obtain ⟨rfl, hxs⟩ := Point.run.inj (hp.symm.trans hp₁)
      obtain ⟨rfl, -⟩ := List.cons.inj hxs
      cases hx
      exact hi.stage_zeroBss hinit hp hsie hpid
    | park hp hge => exact absurd hge (by decide)
    | panic hp hx =>
      have hp₁ : m.point 0 = .run 0 (program 0) := hp₀.resolve_left (by rw [hp]; simp)
      obtain ⟨rfl, hxs⟩ := Point.run.inj (hp.symm.trans hp₁)
      obtain ⟨rfl, -⟩ := List.cons.inj hxs
      cases hx
    | join hp => rcases hp₀ with h | h <;> cases hp.symm.trans h
    | sched hp hn => rcases hp₀ with h | h <;> cases hp.symm.trans h
  | @alone todo _ hp₀ hpub hbss hown hcproc hticks hk =>
    cases hm with
    | @exec tp x xs m' hp hx =>
      obtain ⟨rfl, rfl⟩ := Point.run.inj (hp.symm.trans hp₀)
      rcases publish_suffix (hi.run hp).2.1 with ⟨rfl, rfl⟩ | ⟨h₁, -, h₂⟩
      · exact hi.stage_publish hinit hp hown hcproc hticks hk hx
      · exact hi.stage_alone hinit hp hbss hown hcproc hticks hx h₁ hk h₂
    | @panic tp x xs hp hx =>
      obtain ⟨rfl, rfl⟩ := Point.run.inj (hp.symm.trans hp₀)
      obtain ⟨bytes, hk⟩ := hk
      have ho : Own m.sched 0 (inSection (x :: xs)) := by
        have h := hown 0
        rwa [show m.point (0 : Hart) = _ from hp] at h
      obtain ⟨e, he⟩ := exec_panics ho hx
      refine .stopped hinit (point_goto_self _ _ _) ⟨bytes, e, hk.trans ?_⟩
      change (x.work progs m.kernel >>= fun r => rest progs xs r.2) = .error e
      rw [he]
      rfl
    | join hp =>
      obtain ⟨rfl, rfl⟩ := Point.run.inj (hp.symm.trans hp₀)
      cases hpub
    | enter hp | park hp | sched hp => cases hp.symm.trans hp₀
  | stopped _ hp₀ => cases hm with
    | enter hp | park hp | exec hp | panic hp | join hp | sched hp => cases hp.symm.trans hp₀
  | released h => exact absurd (h.symm.trans hinit) (by simp)

theorem Inv.move (hi : Inv progs m) (hm : Move progs m i a m') : Inv progs m' := by
  refine ⟨hi.fits_move hm, fun hinit j hj => hi.waits_move hm hinit hj, ?_⟩
  by_cases hinit : m.init = true
  · exact hi.stage_open hinit hm
  · rw [Bool.not_eq_true] at hinit
    by_cases h0 : i = 0
    · subst h0
      exact hi.stage_zero hinit hm
    · exact hi.stage_waiting hinit h0 hm

end Inv

theorem inv_reachable {m : Machine L} (hr : (system L progs).Reachable m) : Inv progs m := by
  refine hr.invariant (I := Inv progs) (fun m hm => inv_reset hm) ?_
  intro m a m' _ hi hs
  exact hi.move (step_move hs)

end Wl00.Boot
