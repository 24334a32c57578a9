import Mathlib.Logic.Relation
import Wl00.Trap.Serve

/-!
# User mode resumes with what it had

* `Recalls.next` — the trap by which a thread has come into the kernel is known until it is over.
* `user_context_transparent` — what `tp` is after a trap, and what user mode resumes with.
-/

namespace Wl00.Trap.User

open Rv32 Vm Prog
open Sched (Slot)

variable {L : Layout} {progs : Programs} {s s' : Machine L} {h : Hart} {p q : Slot}
  {k : Kernel L} {m m' : Bytes} {tf : Nat} {st st' : Stage} {e : Entry}

/-! ## One trap, until it is over -/

/-- What is known of the trap of `p` is known from before. -/
def Recalls (p : Slot) (s s' : Machine L) : Prop :=
  ∀ e', s'.entry p = some e' → ∃ e, s.entry p = some e ∧ e'.x = e.x ∧ e'.pc = e.pc ∧
    e'.scause = e.scause

namespace Recalls

theorem of_eq (he : s'.entry p = s.entry p) : Recalls p s s' := by
  intro e' he'
  rw [he] at he'
  exact ⟨e', he', rfl, rfl, rfl⟩

theorem trans {s'' : Machine L} (h₁ : Recalls p s s') (h₂ : Recalls p s' s'') : Recalls p s s'' := by
  intro e'' he''
  obtain ⟨e', he', x', pc', sc'⟩ := h₂ e'' he''
  obtain ⟨e, he, x, pc, sc⟩ := h₁ e' he'
  exact ⟨e, he, x'.trans x, pc'.trans pc, sc'.trans sc⟩

theorem after {s₁ : Machine L} (hs : Recalls p s₁ s') (he : s₁.entry p = s.entry p) : Recalls p s s' :=
  (of_eq he).trans hs

theorem withKernel (p : Slot) (s : Machine L) (k : Kernel L) : Recalls p s (s.withKernel k) := by
  intro e' he'
  unfold Machine.withKernel at he'
  dsimp only at he'
  split_ifs at he'
  exact ⟨e', he', rfl, rfl, rfl⟩

theorem exec {α : Type} {f : KernelM L α} {r : α × Machine L} (hn : s.exec f = some r) :
    Recalls p s r.2 := by
  obtain ⟨k, -, hr⟩ := exec_eq_some hn
  rw [hr]
  exact withKernel p s k

theorem returns (p q : Slot) (s : Machine L) (v : Word) : Recalls p s (s.returns q v) := by
  intro e' he'
  by_cases hpq : p = q
  · subst hpq
    simp only [Machine.returns, Function.update_self, Option.map_eq_some_iff] at he'
    obtain ⟨e, he, rfl⟩ := he'
    exact ⟨e, he, rfl, rfl, rfl⟩
  · simp only [Machine.returns, Function.update_of_ne hpq] at he'
    exact ⟨e', he', rfl, rfl, rfl⟩

theorem forget (p q : Slot) (s : Machine L) : Recalls p s (s.forget q) := by
  intro e' he'
  by_cases hpq : p = q
  · subst hpq
    simp [Machine.forget] at he'
  · simp only [Machine.forget, Function.update_of_ne hpq] at he'
    exact ⟨e', he', rfl, rfl, rfl⟩

theorem sched (hn : s.sched h q = some s') : Recalls p s s' := by
  obtain ⟨r, hr, rfl⟩ := Option.map_eq_some_iff.1 hn
  exact (exec hr).after rfl

theorem clockintr {dev : Nat} (hn : s.clockintr h dev = some s') : Recalls p s s' := by
  unfold Machine.clockintr at hn
  split_ifs at hn
  · obtain ⟨r, hr, rfl⟩ := Option.map_eq_some_iff.1 hn
    exact (exec hr).after rfl
  · cases hn
    exact of_eq rfl

/-- The kernel works, and the process gives up its hart. -/
theorem exec_sched {α : Type} {f : KernelM L α}
    (hn : ((s.exec f).bind fun r => r.2.sched h q) = some s') : Recalls p s s' := by
  obtain ⟨r, hr, hn⟩ := Option.bind_eq_some_iff.1 hn
  exact (exec hr).trans (sched hn)

theorem yield (hn : yield progs s h q = some s') : Recalls p s s' := exec_sched hn

/-- The kernel works, and the function of a system call returns. -/
theorem exec_returns {α : Type} {f : KernelM L α} {v : α → Word}
    (hn : ((s.exec f).map fun r => r.2.returns q (v r.1)) = some s') : Recalls p s s' := by
  obtain ⟨r, hr, rfl⟩ := Option.map_eq_some_iff.1 hn
  exact (exec hr).trans (returns p q _ _)

theorem syscall {kbuf : Bytes} (hn : syscall progs kbuf s q = some s') : Recalls p s s' := by
  unfold User.syscall at hn
  dsimp only at hn
  split_ifs at hn
  · cases hn
    exact of_eq rfl
  · cases hn
    exact of_eq rfl
  · obtain ⟨r, hr, rfl⟩ := Option.map_eq_some_iff.1 hn
    split_ifs
    · exact ((exec hr).trans (forget p q _)).trans (returns p q _ _)
    · exact (exec hr).trans (returns p q _ _)
  · exact exec_returns (v := fun r => BitVec.ofInt 32 r) hn
  · exact exec_returns (v := fun r : Int × List UInt8 => BitVec.ofInt 32 r.1) hn
  · cases hn
    exact returns p q s _
  · cases hn
    exact returns p q s _
  · cases hn
    exact of_eq rfl
  · cases hn
    exact returns p q s _

theorem go {kbuf : Bytes} (hn : go progs kbuf s h q = some s') : Recalls p s s' := by
  unfold User.go at hn
  cases hst : s.stage q <;> simp only [hst] at hn
  case user => cases hn
  case yield => exact (yield hn).after rfl
  case syscall => exact syscall hn
  case wait addr =>
    obtain ⟨r, hr, hn⟩ := Option.bind_eq_some_iff.1 hn
    cases hv : r.1 with
    | some v =>
        rw [hv] at hn
        cases hn
        exact (exec hr).trans (returns p q _ _)
    | none =>
        rw [hv] at hn
        exact (exec hr).trans (sched hn)
  case sleep start n =>
    split_ifs at hn
    · exact exec_sched hn
    · cases hn
      exact returns p q s _
  case result v =>
    cases hn
    exact of_eq rfl
  case exit status => exact exec_sched hn
  case ret =>
    cases hn
    exact of_eq rfl

theorem sTrap {scause : Word} (hn : sTrap progs s h scause = some s') : Recalls p s s' := by
  unfold User.sTrap at hn
  split_ifs at hn
  obtain ⟨s₁, hc, hn⟩ := Option.bind_eq_some_iff.1 hn
  cases hp : s.myproc h with
  | none =>
      rw [hp] at hn
      cases hn
      exact clockintr hc
  | some q =>
      rw [hp] at hn
      dsimp only at hn
      split_ifs at hn
      · exact (clockintr hc).trans (yield hn)
      · cases hn
        exact clockintr hc

/-- Another process has trapped. -/
theorem trap (hpq : p ≠ q) {scause : Word} (hn : trap s h q scause = some s') : Recalls p s s' := by
  have hs : Recalls p s (entered s h q scause) := of_eq (Function.update_of_ne hpq _ _)
  refine hs.trans ?_
  obtain ⟨p', -, hn⟩ := Option.bind_eq_some_iff.1 hn
  unfold uTrapHandle at hn
  dsimp only at hn
  split_ifs at hn
  · exact (clockintr hn).after rfl
  · cases hn
    exact of_eq rfl
  · cases hn
    exact of_eq rfl

/-- While the thread of `p` is in the kernel, no step invents a trap. -/
theorem next {a : Act} (hst : s.stage p ≠ .user) (hn : next progs s a = some s') :
    Recalls p s s' := by
  cases a with
  | user h x pc =>
      rw [User.next] at hn
      split_ifs at hn
      cases hn
      exact of_eq rfl
  | poke h va b =>
      obtain ⟨q, -, hn⟩ := Option.bind_eq_some_iff.1 hn
      obtain ⟨r, hr, rfl⟩ := Option.map_eq_some_iff.1 hn
      exact exec hr
  | trap h scause =>
      obtain ⟨q, hu, hn⟩ := Option.bind_eq_some_iff.1 hn
      refine trap ?_ hn
      rintro rfl
      exact hst (userProc_eq_some.1 hu).2
  | compute h c =>
      rw [User.next] at hn
      split_ifs at hn
      cases hn
      exact of_eq rfl
  | interrupt h scause =>
      rw [User.next] at hn
      split_ifs at hn
      exact sTrap hn
  | go h kbuf =>
      rw [User.next] at hn
      split_ifs at hn
      obtain ⟨q, -, hn⟩ := Option.bind_eq_some_iff.1 hn
      exact go hn
  | dispatch h q =>
      rw [User.next] at hn
      split_ifs at hn
      obtain ⟨r, hr, rfl⟩ := Option.map_eq_some_iff.1 hn
      exact (exec hr).trans (of_eq rfl)

end Recalls

/-- A step after which the thread of `p` is still in the kernel on account of the trap by which
it came in: it has not returned, and no `exec` of it has succeeded. -/
def Handles (progs : Programs) (p : Slot) (s s' : Machine L) : Prop :=
  (∃ a, next progs s a = some s') ∧ s'.stage p ≠ .user ∧ s'.entry p ≠ none

/-- What is known of a trap is known until it is over. -/
theorem Recalls.handles {s₁ s₂ : Machine L} (hrun : Relation.ReflTransGen (Handles progs p) s₁ s₂)
    (hr : (system L progs).Reachable s₁) (hst : s₁.stage p ≠ .user) (he : s₁.entry p ≠ none) :
    (system L progs).Reachable s₂ ∧ s₂.stage p ≠ .user ∧ s₂.entry p ≠ none ∧ Recalls p s₁ s₂ := by
  induction hrun with
  | refl => exact ⟨hr, hst, he, of_eq rfl⟩
  | tail _ hstep ih =>
      obtain ⟨hr', hst', -, hs⟩ := ih
      obtain ⟨⟨a, hn⟩, hst'', he''⟩ := hstep
      exact ⟨hr'.next (a := a) hn, hst'', he'', hs.trans (next hst' hn)⟩

theorem next_go_ret (hi : Inv s) (hp : s.proc h = some p) (hst : s.stage p = .ret) (kbuf : Bytes) :
    next progs s (.go h kbuf) = some (utrapret s h p) := by
  have hu : s.userProc h = none := userProc_of_proc hp (by rw [hst]; simp)
  rw [next, if_pos hu, myproc_eq ((hi.hart h).tp hu), hp, Option.bind_some, go]
  simp only [hst]

/-- **User mode resumes with what it had.**  User code of the process `p` traps on hart `h`.
Then `tp` is the id of that hart, whatever it was in user mode.  While the trap is handled,
anything may happen on all harts.  When the thread has come to `utrapret`, on any hart `h'`,
user mode goes on there with the registers and the pc that it had; after an `ecall`, `a0` is
what the function of the system call has returned, and the pc is the next one. -/
theorem user_context_transparent {s₁ : Machine L} {scause : Word}
    (hr : (system L progs).Reachable s) (hu : s.userProc h = some p)
    (ht : next progs s (.trap h scause) = some s₁) :
    (s₁.core h).x .tp = hartId h ∧
      ∀ s₂ h' kbuf, Relation.ReflTransGen (Handles progs p) s₁ s₂ → s₂.proc h' = some p →
        s₂.stage p = .ret →
        ∃ s₃, next progs s₂ (.go h' kbuf) = some s₃ ∧ s₃.userProc h' = some p ∧
          (scause ≠ SCAUSE_USER_ECALL →
            (s₃.core h').x = (s.core h).x ∧ s₃.pc h' = s.pc h) ∧
          (scause = SCAUSE_USER_ECALL → ∃ v, (s₂.entry p).bind Entry.ret = some v ∧
            (s₃.core h').x = Function.update (s.core h).x .a0 v ∧ s₃.pc h' = s.pc h + 4) := by
  have hi := inv_reachable hr
  have htrap : trap s h p scause = some s₁ := by
    rw [next, hu] at ht
    exact ht
  obtain ⟨-, hst₁, he₁, htp⟩ := trap_spec hi hu htrap
  refine ⟨htp, fun s₂ h' kbuf hrun hp hst => ?_⟩
  obtain ⟨hr₂, -, hne, hrec⟩ := Recalls.handles hrun (hr.next (a := .trap h scause) ht) hst₁
    (by rw [he₁]; simp)
  have hi₂ := inv_reachable hr₂
  obtain ⟨e, he⟩ := Option.ne_none_iff_exists'.1 hne
  obtain ⟨e₁, he₁', hx, hpc, hsc⟩ := hrec e he
  obtain rfl := Option.some.inj (he₁.symm.trans he₁')
  dsimp only at hx hpc hsc
  obtain ⟨hregs, hres⟩ := utrapret_resumes hi₂ hp hst he
  have hfits := (hi₂.kept hp (by rw [hst]; simp) he).fits
  rw [hst] at hfits
  refine ⟨_, next_go_ret hi₂ hp hst kbuf, userProc_eq_some.2 ⟨hp, Function.update_self ..⟩,
    fun hint => ?_, fun hecall => ?_⟩
  · have hret : e.ret = none := by
      by_contra hc
      exact hint (hsc ▸ hfits.2 hc)
    rw [hregs, hres, Entry.regs, Entry.resume, hret, hsc, if_neg hint]
    exact ⟨hx, hpc⟩
  · obtain ⟨v, hv⟩ := Option.ne_none_iff_exists'.1 (hfits.1 (hsc.trans hecall))
    rw [he, Option.bind_some, hregs, hres, Entry.regs, Entry.resume, hv, hsc, if_pos hecall, hx, hpc]
    exact ⟨v, rfl, rfl, rfl⟩

/-! ## A timer interrupt on one hart, and the return on another -/

theorem next_dispatch (hn : s.proc h = none) (hr : (s.kernel.procs p).state = .ready) :
    ∃ s', next progs s (.dispatch h p) = some s' ∧ s'.proc = Function.update s.proc h (some p) ∧
      s'.stage p = s.stage p ∧ s'.entry p = s.entry p := by
  have hu : (s.kernel.procs p).state ≠ .unused := by
    rw [hr]
    decide
  have hnext : next progs s (.dispatch h p) = some { s.withKernel (s.kernel.setProc p fun pp =>
      { pp with state := .running, chan := none }) with
      proc := Function.update s.proc h (some p) } := by
    rw [next, if_pos ⟨hn, hr⟩]
    rfl
  exact ⟨_, hnext, rfl, if_neg hu, if_neg hu⟩

/-- `scause` of a timer interrupt -/
abbrev timer : Word := 0x80000005#32

theorem next_trap_timer (hi : Inv s) (hu : s.userProc h = some p) (hh : h ≠ 0) :
    ∃ s', next progs s (.trap h timer) = some s' ∧ s'.proc = s.proc ∧ s'.stage p = .yield := by
  obtain ⟨hp, -⟩ := userProc_eq_some.1 hu
  obtain ⟨-, htp, ha0, ha1, hspp⟩ := entered_spec hi hu timer
  have hid : hartId h ≠ 0 := by
    intro h0
    have := hartId_toNat h
    rw [h0] at this
    exact hh (Fin.ext this.symm)
  have hnext : next progs s (.trap h timer) = some ({ entered s h p timer with
      kernel := storeTf (entered s h p timer).kernel p epcOff (s.pc h).toNat }.goto p .yield) := by
    rw [next, hu, Option.bind_some, trap]
    dsimp only
    rw [myproc_eq htp, show (entered s h p timer).proc h = some p from hp, Option.bind_some, ha0, ha1,
      uTrapHandle, if_neg (by rw [hspp]; decide)]
    dsimp only
    rw [if_pos (by decide), if_neg (by decide), Machine.clockintr, if_neg]
    · rfl
    · rintro ⟨-, h0⟩
      exact hid (htp.symm.trans h0)
  exact ⟨_, hnext, rfl, Function.update_self ..⟩

theorem next_yield (hi : Inv s) (hp : s.proc h = some p) (hst : s.stage p = .yield) (kbuf : Bytes) :
    ∃ s', next progs s (.go h kbuf) = some s' ∧ s'.proc = Function.update s.proc h none ∧
      (s'.kernel.procs p).state = .ready ∧ s'.stage p = .ret ∧ s'.entry p = s.entry p := by
  have hu : s.userProc h = none := userProc_of_proc hp (by rw [hst]; simp)
  have hused : (s.kernel.procs p).state ≠ .unused := (hi.live hp).ne_unused
  obtain ⟨k, hk⟩ : ∃ k, k = s.kernel.setProc p fun pp => { pp with state := .ready } := ⟨_, rfl⟩
  have hready : (k.procs p).state = .ready := by rw [hk, Kernel.setProc_self]
  have hreap : reap p k = .ok ((), k) := by
    change (if (k.procs p).state = .zombie ∧ (k.procs p).parent = none then releaseproc p
      else pure ()) k = _
    rw [if_neg (by rw [hready]; simp)]
    rfl
  obtain ⟨s₁, hs₁⟩ : ∃ s₁, s₁ = { (s.goto p .ret).withKernel k with
    proc := Function.update s.proc h none } := ⟨_, rfl⟩
  have hyield : (s.goto p .ret).exec (Op.run progs (.yield p)) =
      some ((), (s.goto p .ret).withKernel k) := by
    rw [hk]
    rfl
  have hkern : s₁.kernel = k := by
    rw [hs₁]
    rfl
  have hexec : s₁.exec (reap p) = some ((), s₁.withKernel k) := by
    rw [Machine.exec, hkern, hreap]
  have hnext : next progs s (.go h kbuf) = some (s₁.withKernel k) := by
    rw [next, if_pos hu, myproc_eq ((hi.hart h).tp hu), hp, Option.bind_some, go]
    simp only [hst]
    rw [yield, hyield, Option.bind_some, Machine.sched]
    change (Machine.exec { (s.goto p .ret).withKernel k with
      proc := Function.update s.proc h none } (reap p)).map Prod.snd = _
    rw [← hs₁, hexec]
    rfl
  have hused₁ : (s₁.kernel.procs p).state ≠ .unused := by
    rw [hkern, hready]
    decide
  refine ⟨_, hnext, ?_, hready, (if_neg hused₁).trans ?_, (if_neg hused₁).trans ?_⟩
  · rw [hs₁]
    rfl
  · rw [hs₁]
    exact (if_neg hused).trans (Function.update_self ..)
  · rw [hs₁]
    exact if_neg hused

/-- All harts are in `scheduler`. -/
def booted (k : Kernel L) : Machine L where
  kernel := k
  ticks := 0
  core := fun h => ⟨fun _ => hartId h, fun _ => 0⟩
  pc := fun _ => 0
  proc := fun _ => none
  stage := fun _ => .ret
  entry := fun _ => none

/-- The tiny machine runs user code on hart 1, with any registers. -/
theorem tiny_user (x : Reg → Word) : ∃ (s : Machine tinyLayout) (p : Slot),
    (system tinyLayout tinyPrograms).Reachable s ∧ s.userProc 1 = some p ∧ (s.core 1).x = x ∧
      s.proc 2 = none := by
  rcases wpe_iff.1 (boot_spec (L := tinyLayout) tinyPrograms fun _ => 0) with
    ⟨_, k, hrun, -, p, hp⟩ | ⟨e, -, -, hno⟩
  · have hr₀ : (system tinyLayout tinyPrograms).Reachable (booted k) :=
      .start ⟨⟨_, hrun⟩, fun _ => ⟨rfl, rfl⟩, fun _ => ⟨rfl, rfl⟩⟩
    obtain ⟨s₁, hn₁, hp₁, hst₁, -⟩ :
        ∃ s', next tinyPrograms (booted k) (.dispatch 1 p) = some s' ∧ _ :=
      next_dispatch rfl hp.state
    have hr₁ : (system tinyLayout tinyPrograms).Reachable s₁ := hr₀.next (a := .dispatch 1 p) hn₁
    have hproc : s₁.proc 1 = some p := by rw [hp₁, Function.update_self]
    have hr₂ : (system tinyLayout tinyPrograms).Reachable (utrapret s₁ 1 p) :=
      hr₁.next (a := .go 1 fun _ => 0) (next_go_ret (inv_reachable hr₁) hproc hst₁ _)
    have hu₂ : (utrapret s₁ 1 p).userProc 1 = some p :=
      userProc_eq_some.2 ⟨hproc, Function.update_self ..⟩
    obtain ⟨s₃, hs₃⟩ : ∃ s₃, s₃ = { utrapret s₁ 1 p with
      core := Function.update (utrapret s₁ 1 p).core 1 ⟨x, ((utrapret s₁ 1 p).core 1).csr⟩
      pc := Function.update (utrapret s₁ 1 p).pc 1 0 } := ⟨_, rfl⟩
    have hn₃ : next tinyPrograms (utrapret s₁ 1 p) (.user 1 x 0) = some s₃ := by
      rw [hs₃]
      exact if_pos (by rw [hu₂]; simp)
    refine ⟨s₃, p, hr₂.next (a := .user 1 x 0) hn₃, ?_, ?_, ?_⟩
    · rw [hs₃]
      exact hu₂
    · rw [hs₃]
      dsimp only
      rw [Function.update_self]
    · rw [hs₃]
      exact (congrFun hp₁ 2).trans (Function.update_of_ne (by decide) _ _)
  · exact absurd ⟨tinyImage_accepts, roomy_tiny⟩ hno

/-- Hart 1 takes a timer interrupt, and the process goes on on hart 2; it has used `tp`. -/
theorem user_context_transparent_tiny : ∃ (s s₁ s₂ s₃ : Machine tinyLayout) (p : Slot),
    (system tinyLayout tinyPrograms).Reachable s ∧ s.userProc 1 = some p ∧
      (s.core 1).x .tp = 7 ∧ next tinyPrograms s (.trap 1 timer) = some s₁ ∧
      (s₁.core 1).x .tp = hartId 1 ∧ Relation.ReflTransGen (Handles tinyPrograms p) s₁ s₂ ∧
      next tinyPrograms s₂ (.go 2 fun _ => 0) = some s₃ ∧ s₃.userProc 2 = some p ∧
      (s₃.core 2).x = (s.core 1).x ∧ s₃.pc 2 = s.pc 1 := by
  obtain ⟨s, p, hr, hu, hx, hidle⟩ := tiny_user fun _ => 7
  obtain ⟨s₁, hn₁, hp₁, hst₁⟩ : ∃ s', next tinyPrograms s (.trap 1 timer) = some s' ∧ _ :=
    next_trap_timer (inv_reachable hr) hu (by decide)
  have hr₁ : (system tinyLayout tinyPrograms).Reachable s₁ := hr.next (a := .trap 1 timer) hn₁
  have hp : s₁.proc 1 = some p := by
    rw [hp₁]
    exact (userProc_eq_some.1 hu).1
  have htrap : trap s 1 p timer = some s₁ := by
    rw [next, hu] at hn₁
    exact hn₁
  obtain ⟨-, -, he₁, -⟩ := trap_spec (inv_reachable hr) hu htrap
  obtain ⟨s₁', hn₂, hp₂, hready, hst₂, he₂⟩ :
      ∃ s', next tinyPrograms s₁ (.go 1 fun _ => 0) = some s' ∧ _ :=
    next_yield (inv_reachable hr₁) hp hst₁ _
  have hidle' : s₁'.proc 2 = none := by
    rw [hp₂, Function.update_of_ne (by decide), hp₁]
    exact hidle
  obtain ⟨s₂, hn₃, hp₃, hst₃, he₃⟩ : ∃ s', next tinyPrograms s₁' (.dispatch 2 p) = some s' ∧ _ :=
    next_dispatch hidle' hready
  have hrun : Relation.ReflTransGen (Handles tinyPrograms p) s₁ s₂ := by
    refine .tail (.single ⟨⟨_, hn₂⟩, by rw [hst₂]; simp, by rw [he₂, he₁]; simp⟩) ⟨⟨_, hn₃⟩, ?_, ?_⟩
    · rw [hst₃, hst₂]
      simp
    · rw [he₃, he₂, he₁]
      simp
  obtain ⟨htp, hret⟩ := user_context_transparent hr hu hn₁
  obtain ⟨s₃, hn₄, hu₃, hint, -⟩ :=
    hret s₂ 2 (fun _ => 0) hrun (by rw [hp₃, Function.update_self]) (hst₃.trans hst₂)
  obtain ⟨hregs, hpc⟩ := hint (by decide)
  exact ⟨s, s₁, s₂, s₃, p, hr, hu, by rw [hx], hn₁, htp, hrun, hn₄, hu₃, hregs, hpc⟩

end Wl00.Trap.User
