import Wl00.Space.Write
import Wl00.Trap.Thread

/-!
# Every step of the machine

System calls, the return to user mode and the trap, and from them the invariant of all runs.

* `Inv.syscall`, `Inv.go` — a thread goes on in the kernel.
* `utrapret_resumes` — user mode is entered with what the trapframe holds.
* `trap_spec` — a trap puts the registers there.
* `inv_reachable` — the invariant holds in every reachable state.
* `usertrap_enters` — `stvec` and the trapframe lead into the kernel.
-/

namespace Wl00.Trap.User

open Rv32 Vm Prog
open Sched (Slot)

variable {L : Layout} {progs : Programs} {s s' : Machine L} {h : Hart} {p q : Slot}
  {k : Kernel L} {m m' : Bytes} {tf : Nat} {st st' : Stage} {e : Entry}

/-! ## System calls -/

theorem sysWrite_kernel (hi : Inv s) (hp : s.proc h = some p) (kbuf : Bytes) :
    wp (sysWrite p kbuf) (fun _ k' => k' = s.kernel) s.kernel := by
  obtain ⟨kpt, A, hw⟩ := hi.world
  obtain ⟨t, ks, sp, -, -, -, hpt, hok⟩ := hw.space (hi.live hp)
  have hpool : InPool L s.kernel.mem.bytes (s.kernel.procs p).pt := by
    rw [hpt]
    exact (hok.holds.scattered hok.shape).pool
  exact (sysWrite_spec kbuf hpool).mono fun _ _ hk => hk.1

/-- The function of a system call has worked for its caller and disturbed nobody. -/
theorem Inv.exec_returns (hi : Inv s) (hp : s.proc h = some p) (hc : (s.stage p).Calling)
    (hw : ∃ kpt A, World k kpt A)
    (hq : ∀ q, Fills s.kernel k q ∨ Spares s.kernel k q) (v : Word) : Inv ((s.withKernel k).returns p v) := by
  have hst : (s.withKernel k).stage p = s.stage p := if_neg (hi.live hp).ne_unused
  refine (hi.withKernel hw hq).returns (h := h) hp ?_ v
  rw [hst]
  exact hc

/-- `exec` has succeeded: there is nothing to resume. -/
theorem Inv.exec_forget (hi : Inv s) (hp : s.proc h = some p) (hc : (s.stage p).Calling)
    (hw : ∃ kpt A, World k kpt A) (hst : (k.procs p).state = (s.kernel.procs p).state)
    (hv : Vectors k p) (hq : ∀ q, q ≠ p → Spares s.kernel k q) (v : Word) :
    Inv (((s.withKernel k).forget p).returns p v) := by
  have hself : (((s.withKernel k).forget p).returns p v).stage p = .result v :=
    Function.update_self ..
  refine hi.work hp hc.ne_user hw (fun q hne => ?_) rfl (by rw [hself]; simp) (.inl ⟨rfl, ?_⟩)
    (fun _ => hv) fun _ e he => ?_
  · have hcalm := calm_withKernel (s := s) (.inr (hq q hne))
    unfold Calm at hcalm ⊢
    simp only [Machine.returns, Machine.forget, Machine.goto, Function.update_of_ne hne]
    exact hcalm
  · exact hst.trans ((hi.hart h).running p hp)
  · simp only [Machine.returns, Machine.forget, Machine.goto, Function.update_self] at he
    cases he

theorem Inv.syscall (hi : Inv s) (hp : s.proc h = some p) (hst : s.stage p = .syscall) {kbuf : Bytes}
    (hn : syscall progs kbuf s p = some s') : Inv s' := by
  have hc : (s.stage p).Calling := by
    rw [hst]
    trivial
  have hr := (hi.hart h).running p hp
  have hl := hi.live hp
  obtain ⟨kpt, A, hw⟩ := hi.world
  -- what the trapframe holds stays, as long as nothing is returned
  have hgoto : ∀ st, st ≠ .user → st ≠ .ret → (∀ e : Entry, e.scause = SCAUSE_USER_ECALL → e.Fits st) →
      Inv (s.goto p st) := by
    intro st hu hret hfit
    refine hi.goto hp hc.ne_user hu fun e he => ?_
    have hk := hi.kept hp hc.ne_user he
    refine hk.move ?_ (hfit e (hc.ecall hk.fits))
    rw [hst]
    simp [Entry.held, hret]
  unfold User.syscall at hn
  dsimp only at hn
  split_ifs at hn
  · cases hn
    exact hgoto _ (by simp) (by simp) fun _ _ => trivial
  · cases hn
    exact hgoto _ (by simp) (by simp) fun _ he => he
  · -- `exec`
    obtain ⟨r, hx, rfl⟩ := Option.map_eq_some_iff.1 hn
    obtain ⟨k, hk, hx⟩ := exec_eq_some hx
    obtain ⟨hw', hst', -, hfail, hv, hs⟩ := (hw.sysExec hl).of_run hk
    rw [hx]
    split_ifs with h0
    · exact hi.exec_forget hp hc ⟨kpt, hw'⟩ hst' (hv ((hi.thread p).vectors hl)) hs _
    · refine hi.exec_returns hp hc ⟨kpt, hw'⟩ (fun q => .inr ?_) _
      by_cases hq : q = p
      · rw [hq]
        exact hfail (by omega)
      · exact hs q hq
  · -- `fork`
    obtain ⟨r, hx, rfl⟩ := Option.map_eq_some_iff.1 hn
    obtain ⟨k, hk, hx⟩ := exec_eq_some hx
    obtain ⟨hw', hs⟩ := (hw.fork hl).of_run hk
    rw [hx]
    refine hi.exec_returns hp hc ⟨kpt, hw'⟩ (fun q => (hs q).imp (fun hf => ?_) id) _
    exact ⟨hf.1, hf.2.1, fun _ => hf.2.2 ((hi.thread p).vectors hl)⟩
  · -- `write`
    obtain ⟨r, hx, rfl⟩ := Option.map_eq_some_iff.1 hn
    obtain ⟨k, hk, hx⟩ := exec_eq_some hx
    have hsame := (sysWrite_kernel hi hp kbuf).of_run hk
    rw [hx, hsame]
    exact hi.exec_returns hp hc hi.world (fun q => .inr (.refl _ q)) _
  · cases hn
    exact hi.returns hp hc _
  · cases hn
    exact hi.returns hp hc _
  · cases hn
    exact hgoto _ (by simp) (by simp) fun _ he => he
  · cases hn
    exact hi.returns hp hc _

/-! ## Work on the trapframe -/

theorem storeTf_spec {kpt : Space} {A : Slot → Assets} (hw : World k kpt A)
    (hl : (k.procs p).Live) {o : Nat} (ho : o + 4 ≤ 4096) (w : Nat) :
    World (storeTf k p o w) kpt A ∧ ∀ q, q ≠ p → Spares k (storeTf k p o w) q :=
  hw.tf_map hl fun a ha => Bytes.storeWord_of_ne (by omega)

/-- `k_sp` lies before what `usertrap` needs, and everything else behind it. -/
theorem vectors_storeTf {o : Nat} (ho : o + 4 ≤ 4 ∨ 16 ≤ o) (w : Nat) (hv : Vectors k p) :
    Vectors (storeTf k p o w) p := by
  refine hv.congr rfl fun i h1 h2 => ?_
  change k.mem.bytes.storeWord ((k.procs p).tf + o) w ((k.procs p).tf + i) = _
  exact Bytes.storeWord_of_ne (by omega)

/-- The result is stored in the trapframe. -/
theorem Inv.result (hi : Inv s) (hp : s.proc h = some p) {v : Word} (hst : s.stage p = .result v) :
    Inv ({ s with kernel := storeTf s.kernel p (regOff 10) v.toNat }.goto p .ret) := by
  obtain ⟨kpt, A, hw⟩ := hi.world
  obtain ⟨hw', hs⟩ :=
    storeTf_spec hw (hi.live hp) (show regOff 10 + 4 ≤ 4096 by decide) v.toNat
  have hu : s.stage p ≠ .user := by
    rw [hst]
    simp
  have hself : (({ s with kernel := storeTf s.kernel p (regOff 10) v.toNat } :
    Machine L).goto p .ret).stage p = .ret := Function.update_self ..
  refine hi.work hp hu ⟨kpt, A, hw'⟩ (fun q hq => .inr ⟨hs q hq, Function.update_of_ne hq _ _, rfl⟩)
    rfl (by rw [hself]; simp) (.inl ⟨rfl, (hi.hart h).running p hp⟩)
    (fun hl => vectors_storeTf (by decide) _ ((hi.thread p).vectors hl)) fun _ e he => ?_
  have hk := hi.kept hp hu he
  rw [hst] at hk
  rw [hself]
  exact hk.result

/-! ## Back to user mode -/

/-- What a return needs is in the trapframe still. -/
theorem Entry.Kept.ready (he : e.Kept k.mem.bytes (k.procs p).tf st) (tp : Word) :
    e.Kept (readyTf k p tp).mem.bytes (k.procs p).tf st where
  regs := by
    have hl : ∀ s ∈ regSlots, 4 ≤ s.2 ∧ s.2 + 4 ≤ 148 := by decide
    intro s hs
    obtain ⟨h1, h2⟩ := hl s hs
    simp only [readyTf, storeTf, Mem.bytes_mapBytes]
    rw [Bytes.word_storeWord_of_ne (by simp only [kHartidOff]; omega),
      Bytes.word_storeWord_of_ne (by simp only [kSpOff]; omega)]
    exact he.regs s hs
  epc := by
    simp only [readyTf, storeTf, Mem.bytes_mapBytes]
    rw [Bytes.word_storeWord_of_ne (by simp only [epcOff, kHartidOff]; omega),
      Bytes.word_storeWord_of_ne (by simp only [epcOff, kSpOff]; omega)]
    exact he.epc
  fits := he.fits

theorem readyTf_spec {kpt : Space} {A : Slot → Assets} (hw : World k kpt A)
    (hl : (k.procs p).Live) (tp : Word) :
    World (readyTf k p tp) kpt A ∧ (∀ q, q ≠ p → Spares k (readyTf k p tp) q) ∧
      tfWord (readyTf k p tp) p kHartidOff = tp.toNat ∧
      tfWord (readyTf k p tp) p kSpOff = ((k.procs p).kstack + PAGE_SIZE) % 2 ^ 32 := by
  obtain ⟨hw₁, hs₁⟩ := storeTf_spec hw hl (show kSpOff + 4 ≤ 4096 by decide)
    ((k.procs p).kstack + PAGE_SIZE)
  obtain ⟨hw₂, hs₂⟩ := storeTf_spec (p := p) hw₁ hl (show kHartidOff + 4 ≤ 4096 by decide) tp.toNat
  refine ⟨hw₂, fun q hq => (hs₁ q hq).trans (hs₂ q hq), Bytes.word_storeWord tp.isLt, ?_⟩
  rw [tfWord, readyTf, storeTf, Mem.bytes_mapBytes]
  refine (Bytes.word_storeWord_of_ne ?_).trans (Bytes.word_storeWord_mod _)
  simp only [storeTf, kSpOff, kHartidOff]
  omega

/-- Memory stays as it is, and the hart is ready for the next trap. -/
theorem returned_frame (c : Core) (hle : (k.procs p).tf < 2 ^ 32) :
    (returned k p c).2 = k.mem.bytes ∧
      ((returned k p c).1.csr .sscratch).toNat = (k.procs p).tf ∧
      (returned k p c).1.csr .sepc = BitVec.ofNat 32 (tfWord k p epcOff) ∧
      (returned k p c).1.csr .stvec = BitVec.ofNat 32 L.usertrap := by
  obtain ⟨hmem, hcsr⟩ :=
    run_usertrapret_frame (returnCore L c (k.procs p) (tfWord k p epcOff)) k.mem.bytes
  rw [returned, hmem, hcsr]
  refine ⟨rfl, ?_, rfl, rfl⟩
  rw [Function.update_self, returnCore, Core.set_self, BitVec.toNat_ofNat, Nat.mod_eq_of_lt hle]

/-- The registers are those in the trapframe. -/
theorem returned_regs (c : Core) {x : Reg → Word} (hle : (k.procs p).tf + 4096 ≤ 2 ^ 32)
    (hs : Saved k.mem.bytes (k.procs p).tf x regSlots) : (returned k p c).1.x = x := by
  have ha0 : ((returnCore L c (k.procs p) (tfWord k p epcOff)).x .a0).toNat = (k.procs p).tf := by
    rw [returnCore, Core.set_self, BitVec.toNat_ofNat, Nat.mod_eq_of_lt (by omega)]
  rw [returned, run_usertrapret ha0 (by omega) hs]

/-- Memory has been made ready for the next trap, and that is all. -/
theorem utrapret_kernel (hle : (s.kernel.procs p).tf < 2 ^ 32) :
    (utrapret s h p).kernel = readyTf s.kernel p ((s.core h).x .tp) := by
  unfold utrapret
  simp only [(returned_frame (k := readyTf s.kernel p ((s.core h).x .tp)) (p := p) (s.core h) hle).1]
  rfl

theorem Inv.utrapret (hi : Inv s) (hp : s.proc h = some p) (hst : s.stage p = .ret) :
    Inv (utrapret s h p) := by
  obtain ⟨kpt, A, hw⟩ := hi.world
  have hr := (hi.hart h).running p hp
  have hlt : (s.kernel.procs p).tf < 2 ^ 32 := by
    have := hw.tf_le (hi.live hp)
    omega
  have htp : (s.core h).x .tp = hartId h :=
    (hi.hart h).tp (userProc_of_proc hp (by rw [hst]; simp))
  obtain ⟨hw', hs, hid, hsp⟩ := readyTf_spec hw (hi.live hp) ((s.core h).x .tp)
  have hkern : (User.utrapret s h p).kernel = _ := utrapret_kernel (h := h) hlt
  have hself : (User.utrapret s h p).stage p = .user := Function.update_self ..
  refine hi.step (h := h) (p := p) ⟨kpt, A, by rw [hkern]; exact hw'⟩ (fun q hq => .inr ⟨?_, ?_, rfl⟩)
    (fun h' hne => ⟨?_, rfl, fun hp' => hne (hi.one _ _ _ hp' hp)⟩) (fun q hq => ?_)
    ⟨fun hn => ?_, fun q hq => ?_, fun q hq => ?_⟩
    ⟨fun _ _ => ?_, fun _ hn => absurd hself hn, fun _ => ?_⟩
  · rw [hkern]
    exact hs q hq
  · exact Function.update_of_ne hq _ _
  · exact Function.update_of_ne hne _ _
  · rw [show (User.utrapret s h p).proc h = some p from hp] at hq
    cases hq
    rfl
  · exact absurd hself (userProc_eq_none.1 hn p hp)
  · rw [show (User.utrapret s h p).proc h = some p from hp] at hq
    cases hq
    rw [hkern]
    exact hr
  · have hq' := (userProc_eq_some.1 hq).1
    rw [show (User.utrapret s h p).proc h = some p from hp] at hq'
    cases hq'
    obtain ⟨-, hsc, -, hvec⟩ :=
      returned_frame (k := readyTf s.kernel p ((s.core h).x .tp)) (s.core h) hlt
    rw [hkern]
    refine ⟨?_, ?_, by rw [hid, htp, hartId_toNat], hsp⟩ <;> unfold User.utrapret <;> dsimp only <;>
      rw [Function.update_self]
    · exact hvec
    · exact hsc
  · rw [hkern]
    exact hr
  · rw [hkern]
    exact vectors_storeTf (by decide) _
      (vectors_storeTf (by decide) _ ((hi.thread p).vectors (hi.live hp)))

/-- **`utrapret` brings back what the trapframe holds.** -/
theorem utrapret_resumes (hi : Inv s) (hp : s.proc h = some p) (hst : s.stage p = .ret)
    (he : s.entry p = some e) :
    ((utrapret s h p).core h).x = e.regs ∧ (utrapret s h p).pc h = e.resume := by
  obtain ⟨kpt, A, hw⟩ := hi.world
  have hle := hw.tf_le (hi.live hp)
  have hlt : (s.kernel.procs p).tf < 2 ^ 32 := by omega
  have hk := (hi.kept hp (by rw [hst]; simp) he).ready ((s.core h).x .tp)
  rw [hst] at hk
  have hregs : e.held .ret = e.regs := if_pos rfl
  unfold utrapret
  dsimp only
  rw [Function.update_self, Function.update_self]
  constructor
  · refine returned_regs (k := readyTf s.kernel p ((s.core h).x .tp)) (s.core h) hle ?_
    rw [← hregs]
    exact hk.regs
  · rw [(returned_frame (k := readyTf s.kernel p ((s.core h).x .tp)) (s.core h) hlt).2.2.1, tfWord,
      show (readyTf s.kernel p ((s.core h).x .tp)).procs p = s.kernel.procs p from rfl, hk.epc,
      BitVec.ofNat_toNat, BitVec.setWidth_eq]

/-! ## A thread goes on -/

/-- **The thread goes on in the kernel.** -/
theorem Inv.go (hi : Inv s) (hp : s.proc h = some p) {kbuf : Bytes}
    (hn : go progs kbuf s h p = some s') : Inv s' := by
  have hr := (hi.hart h).running p hp
  obtain ⟨kpt, A, hw⟩ := hi.world
  unfold User.go at hn
  cases hst : s.stage p <;> simp only [hst] at hn
  case user => cases hn
  case yield =>
    have hi' : Inv (s.goto p .ret) := by
      refine hi.goto hp (by rw [hst]; simp) (by simp) fun e he => ?_
      have hk := hi.kept hp (by rw [hst]; simp) he
      rw [hst] at hk
      obtain ⟨hne, hret⟩ := hk.fits
      refine hk.move ?_ ⟨fun hc => absurd hc hne, fun hc => absurd hret hc⟩
      simp [Entry.held, Entry.regs, hret]
    refine hi'.yield hp ?_ hn
    simp [Machine.goto]
  case syscall => exact hi.syscall hp hst hn
  case wait addr =>
    have hc : (s.stage p).Calling := by
      rw [hst]
      trivial
    obtain ⟨r, hx, hn⟩ := Option.bind_eq_some_iff.1 hn
    obtain ⟨k, hk, hx⟩ := exec_eq_some hx
    obtain ⟨hw', hown, hkeep, -, hs⟩ := (hw.wait hr addr).of_run hk
    rw [hx] at hn
    cases hv : r.1 with
    | some v =>
        rw [hv] at hn hown
        cases hn
        refine hi.exec_returns hp hc ⟨kpt, hw'⟩ (fun q => .inr ?_) _
        by_cases hq : q = p
        · rw [hq]
          exact hown (by simp)
        · exact hs q hq
    | none =>
        rw [hv] at hn
        exact Inv.sched (hi.leave hp hc.ne_user ⟨kpt, hw'⟩ hkeep hs) hn
  case sleep start n =>
    have hc : (s.stage p).Calling := by
      rw [hst]
      trivial
    split_ifs at hn
    · obtain ⟨r, hx, hn⟩ := Option.bind_eq_some_iff.1 hn
      obtain ⟨k, hk, hx⟩ := exec_eq_some hx
      have hstep : wp (Op.run progs (.sleep p)) (fun _ k' => ∃ A', World k' kpt A') s.kernel :=
        world_step hw hr
      have hw' := hstep.of_run hk
      cases hk
      rw [hx] at hn
      exact hi.block (f := fun pp => { pp with chan := some .ticks, state := .waiting }) hp
        hc.ne_user (fun _ => ⟨rfl, rfl⟩) ⟨kpt, hw'⟩ hn
    · cases hn
      exact hi.returns hp hc _
  case result v =>
    cases hn
    exact hi.result hp hst
  case exit status =>
    obtain ⟨r, hx, hn⟩ := Option.bind_eq_some_iff.1 hn
    obtain ⟨k, hk, hx⟩ := exec_eq_some hx
    obtain ⟨hw', hz, hs⟩ := (hw.kexit hr status).of_run hk
    have hdead : ¬(k.procs p).Live := by
      unfold Proc.Live
      rw [hz]
      simp
    rw [hx] at hn
    exact Inv.sched (hi.leave hp (by rw [hst]; simp) ⟨kpt, hw'⟩
      ⟨fun hl => absurd hl hdead, fun _ hl => absurd hl hdead, fun _ hl => absurd hl hdead⟩ hs) hn
  case ret =>
    cases hn
    exact hi.utrapret hp hst

/-- **An interrupt in the kernel.** -/
theorem Inv.sTrap (hi : Inv s) (hu : s.userProc h = none) {scause : Word}
    (hn : sTrap progs s h scause = some s') : Inv s' := by
  unfold User.sTrap at hn
  split_ifs at hn
  obtain ⟨s₁, hc, hn⟩ := Option.bind_eq_some_iff.1 hn
  obtain ⟨hi₁, -, hproc, hsame⟩ := clockintr_spec hi hc
  rw [myproc_eq ((hi.hart h).tp hu)] at hn
  cases hp : s.proc h with
  | none =>
      rw [hp] at hn
      cases hn
      exact hi₁
  | some p =>
      rw [hp] at hn
      dsimp only at hn
      split_ifs at hn
      · refine hi₁.yield (by rw [hproc, hp]) ?_ hn
        rw [(hsame p (hi.live hp).ne_unused).1]
        exact userProc_eq_none.1 hu p hp
      · cases hn
        exact hi₁

/-! ## Into the kernel -/

/-- The thread of `p` has come into the kernel on hart `h`, with `e` in its trapframe. -/
theorem Inv.enter (hi : Inv s) (hu : s.userProc h = some p) (hw : ∃ kpt A, World k kpt A)
    (hpr : k.procs p = s.kernel.procs p) (hq : ∀ q, q ≠ p → Spares s.kernel k q) (hst : st ≠ .user)
    (hv : Vectors k p) (he : e.Kept k.mem.bytes (k.procs p).tf st) {c : Core} (hc : c.x .tp = hartId h) :
    Inv { s with
      kernel := k
      core := Function.update s.core h c
      stage := Function.update s.stage p st
      entry := Function.update s.entry p (some e) } := by
  obtain ⟨hp, -⟩ := userProc_eq_some.1 hu
  refine hi.step (h := h) (p := p) hw (fun q hne => .inr ⟨hq q hne, ?_, ?_⟩)
    (fun h' hne => ⟨?_, rfl, fun hp' => hne (hi.one _ _ _ hp' hp)⟩) (fun q hp' => ?_)
    ⟨fun _ => ?_, fun q hp' => ?_, fun q hu' => ?_⟩ ⟨fun _ hu' => ?_, fun _ _ e' he' => ?_, fun _ => hv⟩
  · exact Function.update_of_ne hne _ _
  · exact Function.update_of_ne hne _ _
  · exact Function.update_of_ne hne _ _
  · exact Option.some.inj (hp'.symm.trans hp)
  · dsimp only
    rw [Function.update_self]
    exact hc
  · obtain rfl : q = p := Option.some.inj (hp'.symm.trans hp)
    rw [hpr]
    exact (hi.hart h).running q hp
  · obtain ⟨hp', hst'⟩ := userProc_eq_some.1 hu'
    obtain rfl : q = p := Option.some.inj (hp'.symm.trans hp)
    dsimp only at hst'
    rw [Function.update_self] at hst'
    exact absurd hst' hst
  · dsimp only at hu'
    rw [Function.update_self] at hu'
    exact absurd hu' hst
  · dsimp only at he' ⊢
    rw [Function.update_self] at he' ⊢
    cases he'
    exact he

/-- The registers of hart `h` are in the trapframe of `p`, and nobody else's has changed. -/
structure Saving (s : Machine L) (h : Hart) (p : Slot) (k : Kernel L) : Prop where
  world : ∃ kpt A, World k kpt A
  procs : k.procs = s.kernel.procs
  other : ∀ q, q ≠ p → Spares s.kernel k q
  saved : Saved k.mem.bytes (s.kernel.procs p).tf (s.core h).x regSlots
  vectors : Vectors k p

theorem userStatus_spp (w : Word) : (userStatus w).getLsbD 8 = false := by
  unfold userStatus
  split_ifs <;> simp

/-- `usertrap`, entered from user mode -/
theorem entered_spec (hi : Inv s) (hu : s.userProc h = some p) (scause : Word) :
    Saving s h p (entered s h p scause).kernel ∧
      ((entered s h p scause).core h).x .tp = hartId h ∧
      ((entered s h p scause).core h).x .a0 = scause ∧
      ((entered s h p scause).core h).x .a1 = s.pc h ∧
      (((entered s h p scause).core h).csr .sstatus).getLsbD 8 = false := by
  obtain ⟨kpt, A, hw⟩ := hi.world
  obtain ⟨hp, -⟩ := userProc_eq_some.1 hu
  have hle := hw.tf_le (hi.live hp)
  have hready := (hi.hart h).user p hu
  obtain ⟨c, hc⟩ : ∃ c, c = trapCore (s.core h) (s.pc h) scause := ⟨_, rfl⟩
  have hsc' : (c.csr .sscratch).toNat = (s.kernel.procs p).tf := by
    rw [hc, ← hready.sscratch]
    rfl
  have hx : c.x = (s.core h).x ∧ c.csr .sepc = s.pc h ∧ c.csr .scause = scause ∧
      c.csr .sstatus = userStatus ((s.core h).csr .sstatus) := by
    rw [hc]
    exact ⟨rfl, rfl, rfl, rfl⟩
  have hrun := fun m => run_usertrap (c := c) m hsc' (by omega)
  have hmap : ∀ m, (run c m usertrap).2 = userSave m (s.kernel.procs p).tf (s.core h).x (s.pc h) := by
    intro m
    rw [(hrun m).1, hx.1, hx.2.1]
  obtain ⟨hw', hs⟩ := hw.tf_map (f := fun m => (run c m usertrap).2) (hi.live hp) fun a ha => by
    rw [hmap]
    exact userSave_of_not_mem (by omega)
  obtain ⟨-, htp, ha0, ha1, hst, -⟩ := hrun s.kernel.mem.bytes
  have hcore : (entered s h p scause).core h = (run c s.kernel.mem.bytes usertrap).1 := by
    rw [hc]
    exact Function.update_self ..
  have hkern : (entered s h p scause).kernel =
      { s.kernel with mem := s.kernel.mem.mapBytes fun m => (run c m usertrap).2 } := by
    rw [hc]
    rfl
  rw [hkern, hcore]
  refine ⟨⟨⟨kpt, A, hw'⟩, rfl, hs, ?_, ?_⟩, ?_, ha0.trans hx.2.2.1, ha1.trans hx.2.1, ?_⟩
  · rw [Mem.bytes_mapBytes, hmap]
    exact saved_userSave _ _ _ _
  · refine ((hi.thread p).vectors (hi.live hp)).congr rfl fun o _ ho => ?_
    rw [Mem.bytes_mapBytes, hmap]
    exact userSave_of_lt ho
  · rw [htp]
    exact congrArg (BitVec.ofNat 32) hready.kHartid
  · rw [hst, hx.2.2.2]
    exact userStatus_spp _

/-- `u_trap_handle` stores `epc`. -/
theorem Saving.epc (hs : Saving s h p k) (hl : (s.kernel.procs p).Live) {w : Nat} (hw : w < 2 ^ 32) :
    Saving s h p (storeTf k p epcOff w) ∧ tfWord (storeTf k p epcOff w) p epcOff = w := by
  obtain ⟨kpt, A, hworld⟩ := hs.world
  have hl' : (k.procs p).Live := by
    rw [hs.procs]
    exact hl
  obtain ⟨hw', ho⟩ := storeTf_spec hworld hl' (show epcOff + 4 ≤ 4096 by decide) w
  have hreg : ∀ s ∈ regSlots, epcOff + 4 ≤ s.2 := by decide
  refine ⟨⟨⟨kpt, A, hw'⟩, hs.procs, fun q hq => (hs.other q hq).trans (ho q hq), fun r hr => ?_,
    vectors_storeTf (by decide) _ hs.vectors⟩, ?_⟩
  · have h1 := hreg r hr
    rw [storeTf, hs.procs]
    dsimp only
    rw [Mem.bytes_mapBytes, Bytes.word_storeWord_of_ne (by omega)]
    exact hs.saved r hr
  · exact Bytes.word_storeWord hw

/-- `u_trap_handle` goes on to `st`. -/
theorem Saving.inv (hs : Saving s h p k) (hi : Inv s) (hu : s.userProc h = some p) (hst : st ≠ .user)
    {scause : Word} (he : tfWord k p epcOff = (Entry.resume ⟨(s.core h).x, s.pc h, scause, none⟩).toNat)
    (hf : Entry.Fits ⟨(s.core h).x, s.pc h, scause, none⟩ st) :
    Inv ({ entered s h p scause with kernel := k }.goto p st) := by
  have hpr : k.procs p = s.kernel.procs p := by rw [hs.procs]
  have hsaved := hs.saved
  rw [← hpr] at hsaved
  have htp := (entered_spec hi hu scause).2.1
  rw [entered] at htp
  dsimp only at htp
  rw [Function.update_self] at htp
  exact hi.enter hu hs.world hpr hs.other hst hs.vectors (Entry.kept_of_saved hsaved he rfl hf) htp

/-- **A trap from user mode.** -/
theorem trap_spec (hi : Inv s) (hu : s.userProc h = some p) {scause : Word}
    (hn : trap s h p scause = some s') :
    Inv s' ∧ s'.stage p ≠ .user ∧ s'.entry p = some ⟨(s.core h).x, s.pc h, scause, none⟩ ∧
      (s'.core h).x .tp = hartId h := by
  obtain ⟨hp, -⟩ := userProc_eq_some.1 hu
  obtain ⟨hs, htp, ha0, ha1, -⟩ := entered_spec hi hu scause
  have hl := hi.live hp
  unfold trap at hn
  dsimp only at hn
  rw [myproc_eq htp, show (entered s h p scause).proc h = some p from hp, Option.bind_some, ha0,
    ha1] at hn
  obtain ⟨hs₁, hepc⟩ := hs.epc hl (s.pc h).isLt
  unfold uTrapHandle at hn
  dsimp only at hn
  have hentry : (entered s h p scause).entry p = some ⟨(s.core h).x, s.pc h, scause, none⟩ :=
    Function.update_self ..
  have hself : ∀ (k : Kernel L) st, ({ entered s h p scause with kernel := k }.goto p st).stage p = st :=
    fun _ _ => Function.update_self ..
  split_ifs at hn with hspp hint hdev hecall
  · -- an interrupt; the clock does not touch the process
    have hne : scause ≠ SCAUSE_USER_ECALL := by
      rintro rfl
      revert hint
      decide
    have hres : Entry.resume ⟨(s.core h).x, s.pc h, scause, none⟩ = s.pc h := if_neg hne
    have hst : afterIntr (devintr scause) ≠ .user := by
      unfold afterIntr
      split_ifs <;> simp
    have hi₁ : Inv ({ entered s h p scause with
        kernel := storeTf (entered s h p scause).kernel p epcOff (s.pc h).toNat }.goto p
          (afterIntr (devintr scause))) := by
      refine hs₁.inv hi hu hst (by rw [hepc, hres]) ?_
      · unfold afterIntr
        split_ifs
        · exact ⟨hne, rfl⟩
        · exact ⟨fun hc => absurd hc hne, fun hc => absurd rfl hc⟩
    obtain ⟨hi', hcore, -, hsame⟩ := clockintr_spec hi₁ hn
    have hlive : (s.kernel.procs p).state ≠ .unused := hl.ne_unused
    rw [← hs₁.procs] at hlive
    refine ⟨hi', ?_, (hsame p hlive).2.trans hentry, ?_⟩
    · rw [(hsame p hlive).1, hself]
      exact hst
    · rw [hcore]
      exact htp
  · -- a system call
    have hres : Entry.resume ⟨(s.core h).x, s.pc h, scause, none⟩ = s.pc h + 4 := if_pos hecall
    cases hn
    rw [hepc]
    obtain ⟨hs₂, hepc₂⟩ := hs₁.epc (w := ((s.pc h).toNat + 4) % 2 ^ 32) hl (Nat.mod_lt _ (by decide))
    refine ⟨hs₂.inv hi hu (by simp) ?_ hecall, by rw [hself]; simp, hentry, htp⟩
    rw [hepc₂, hres, BitVec.toNat_add]
    rfl
  · -- a fault
    have hres : Entry.resume ⟨(s.core h).x, s.pc h, scause, none⟩ = s.pc h := if_neg hecall
    cases hn
    exact ⟨hs₁.inv hi hu (by simp) (by rw [hepc, hres]) trivial, by rw [hself]; simp, hentry, htp⟩

/-! ## Every run -/

theorem inv_start (hs : start progs s) : Inv s := by
  obtain ⟨⟨bytes, hb⟩, hh, hp⟩ := hs
  obtain ⟨hw, i, hfirst⟩ : (∃ kpt A, World s.kernel kpt A) ∧
      ∃ i, First progs (.start L bytes) s.kernel i := by
    rcases wpe_iff.1 (boot_spec (L := L) progs bytes) with ⟨_, k', he, hw⟩ | ⟨err, he, -⟩
    · rw [hb] at he
      cases he
      exact hw
    · rw [hb] at he
      cases he
  refine ⟨hw, fun h => ⟨fun _ => (hh h).2, fun p hp' => ?_, fun p hu => ?_⟩, fun h h' p hp' _ => ?_,
    fun p => ⟨fun _ hu => ?_, fun _ _ e he => ?_, fun hl => ?_⟩⟩
  · rw [(hh h).1] at hp'
    cases hp'
  · have hp' := (userProc_eq_some.1 hu).1
    rw [(hh h).1] at hp'
    cases hp'
  · rw [(hh h).1] at hp'
    cases hp'
  · rw [(hp p).1] at hu
    cases hu
  · rw [(hp p).2] at he
    cases he
  · -- there is no other process yet
    obtain rfl : p = i := by
      by_contra hne
      rw [hfirst.other p hne] at hl
      exact hl.ne_unused rfl
    exact hfirst.vectors

/-- User code, or compiled code of the kernel, changes the registers of its hart. -/
theorem Inv.code (hi : Inv s) {c : Core} {pc : Hart → Word}
    (htp : s.userProc h = none → c.x .tp = (s.core h).x .tp)
    (hcsr : s.userProc h ≠ none → c.csr = (s.core h).csr) :
    Inv { s with core := Function.update s.core h c, pc := pc } := by
  refine ⟨hi.world, fun h' => ?_, hi.one,
    fun p => ⟨(hi.thread p).user, (hi.thread p).entry, (hi.thread p).vectors⟩⟩
  by_cases hne : h' = h
  · subst hne
    refine ⟨fun hn => ?_, (hi.hart h').running, fun p hu => ?_⟩
    · dsimp only
      rw [Function.update_self, htp hn]
      exact (hi.hart h').tp hn
    · dsimp only
      rw [Function.update_self, hcsr]
      · exact (hi.hart h').user p hu
      · intro hn
        exact absurd (hu.symm.trans hn) (by simp)
  · have hcore : Function.update s.core h c h' = s.core h' := Function.update_of_ne hne _ _
    refine ⟨fun hn => ?_, (hi.hart h').running, fun p hu => ?_⟩
    · dsimp only
      rw [hcore]
      exact (hi.hart h').tp hn
    · dsimp only
      rw [hcore]
      exact (hi.hart h').user p hu

theorem Inv.poke (hi : Inv s) (hu : s.userProc h = some p) {va : UInt32} {b : UInt8}
    (hk : Op.run progs (.poke p va b) s.kernel = .ok ((), k)) : Inv (s.withKernel k) := by
  obtain ⟨kpt, A, hw⟩ := hi.world
  have hl := hi.live (userProc_eq_some.1 hu).1
  have hstep : wp (Op.run progs (.poke p va b)) (fun _ k' => World k' kpt A ∧
      ∀ q, Spares s.kernel k' q) s.kernel := by
    rw [Op.run, wp_bind, wp_getProc, wp_onMem]
    exact hw.poke hl va b
  obtain ⟨hw', hs⟩ := hstep.of_run hk
  exact hi.withKernel ⟨kpt, A, hw'⟩ fun q => .inr (hs q)

theorem Inv.dispatch (hi : Inv s) (hn : s.proc h = none) (hr : (s.kernel.procs p).state = .ready)
    (hk : Op.run progs (.dispatch p) s.kernel = .ok ((), k)) :
    Inv { s.withKernel k with proc := Function.update s.proc h (some p) } := by
  obtain ⟨kpt, A, hw⟩ := hi.world
  have hl : (s.kernel.procs p).Live := .inl hr
  have hstep : wp (Op.run progs (.dispatch p)) (fun _ k' => ∃ A', World k' kpt A') s.kernel :=
    world_step hw hr
  have hw' : ∃ kpt A, World k kpt A := ⟨kpt, hstep.of_run hk⟩
  have hk : k = s.kernel.setProc p fun pp => { pp with state := .running, chan := none } := by
    cases hk
    rfl
  have hmem : k.mem = s.kernel.mem := by
    rw [hk]
    rfl
  have hkpt : k.kptable = s.kernel.kptable := by
    rw [hk]
    rfl
  have hkp : k.procs p = { s.kernel.procs p with state := .running, chan := none } := by
    rw [hk, Kernel.setProc_self]
  -- a process in user mode is RUNNING
  have hst : s.stage p ≠ .user := by
    intro hu
    have := (hi.thread p).user hl hu
    rw [hr] at this
    cases this
  have hoff : ∀ h', s.proc h' ≠ some p := by
    intro h' hp
    have := (hi.hart h').running p hp
    rw [hr] at this
    cases this
  have hstage : (s.withKernel k).stage p = s.stage p := if_neg hl.ne_unused
  have hentry : (s.withKernel k).entry p = s.entry p := if_neg hl.ne_unused
  have hown : ∀ q, Function.update s.proc h (some p) h = some q → q = p := by
    intro q hq
    rw [Function.update_self] at hq
    exact (Option.some.inj hq).symm
  refine hi.step (h := h) (p := p) hw' (fun q hq => ?_) (fun h' hne => ⟨rfl, ?_, hoff h'⟩) hown
    ⟨fun _ => ?_, fun q hq => ?_, fun q hq => ?_⟩ ⟨fun _ hu => ?_, fun _ _ e he => ?_, fun _ => ?_⟩
  · have hsp : Spares s.kernel k q :=
      spares_fields hmem hkpt (by rw [hk, Kernel.setProc_ne hq])
    exact calm_withKernel (.inr hsp)
  · exact Function.update_of_ne hne _ _
  · exact (hi.hart h).tp (userProc_of_none hn)
  · rw [hown q hq]
    exact congrArg Proc.state hkp
  · obtain ⟨hq', hst'⟩ := userProc_eq_some.1 hq
    rw [hown q hq'] at hst'
    exact absurd (hstage.symm.trans hst') hst
  · exact absurd (hstage.symm.trans hu) hst
  · have htf : (k.procs p).tf = (s.kernel.procs p).tf := by rw [hkp]
    change e.Kept k.mem.bytes (k.procs p).tf ((s.withKernel k).stage p)
    rw [hmem, htf, hstage]
    exact (hi.thread p).entry hl hst e (hentry.symm.trans he)
  · refine ((hi.thread p).vectors hl).congr hkpt fun o _ _ => ?_
    change k.mem.bytes ((k.procs p).tf + o) = _
    rw [hmem, hkp]

/-- **Every step keeps the invariant.** -/
theorem Inv.next (hi : Inv s) {a : Act} (hn : next progs s a = some s') : Inv s' := by
  cases a with
  | user h x pc =>
      rw [User.next] at hn
      split_ifs at hn with hu
      cases hn
      exact hi.code (fun hc => absurd hc hu) fun _ => rfl
  | poke h va b =>
      obtain ⟨p, hu, hn⟩ := Option.bind_eq_some_iff.1 hn
      obtain ⟨r, hr, rfl⟩ := Option.map_eq_some_iff.1 hn
      obtain ⟨k, hk, hr⟩ := exec_eq_some hr
      rw [hr]
      exact hi.poke hu hk
  | trap h scause =>
      obtain ⟨p, hu, hn⟩ := Option.bind_eq_some_iff.1 hn
      exact (trap_spec hi hu hn).1
  | compute h c =>
      rw [User.next] at hn
      split_ifs at hn with hu
      cases hn
      exact hi.code (fun _ => hu.2) fun hc => absurd hu.1 hc
  | interrupt h scause =>
      rw [User.next] at hn
      split_ifs at hn with hu
      exact hi.sTrap hu hn
  | go h kbuf =>
      rw [User.next] at hn
      split_ifs at hn with hu
      rw [myproc_eq ((hi.hart h).tp hu)] at hn
      obtain ⟨p, hp, hn⟩ := Option.bind_eq_some_iff.1 hn
      exact hi.go hp hn
  | dispatch h p =>
      rw [User.next] at hn
      split_ifs at hn with hc
      obtain ⟨r, hr, rfl⟩ := Option.map_eq_some_iff.1 hn
      obtain ⟨k, hk, hr⟩ := exec_eq_some hr
      rw [hr]
      exact hi.dispatch hc.1 hc.2 hk

theorem inv_reachable (hr : (system L progs).Reachable s) : Inv s :=
  hr.invariant (fun _ hs => inv_start hs)
    fun s a s' _ hi (hn : next progs s a = some s') => hi.next hn

/-- **A trap from user mode enters the kernel**, whatever has happened before.  The vector of
the hart is `usertrap`; this goes on to `u_trap_handle` on the stack of the process, with the
table of the kernel and with `kerneltrap` for the traps that come next. -/
theorem usertrap_enters (hr : (system L progs).Reachable s) (hu : s.userProc h = some p)
    (scause : Word) :
    (s.core h).csr .stvec = BitVec.ofNat 32 L.usertrap ∧
      ((entered s h p scause).core h).x .t2 = BitVec.ofNat 32 L.uTrapHandle ∧
      ((entered s h p scause).core h).x .sp =
        BitVec.ofNat 32 ((s.kernel.procs p).kstack + PAGE_SIZE) ∧
      ((entered s h p scause).core h).csr .satp = BitVec.ofNat 32 (makeSatp s.kernel.kptable) ∧
      ((entered s h p scause).core h).csr .stvec = BitVec.ofNat 32 L.kerneltrap := by
  have hi := inv_reachable hr
  obtain ⟨kpt, A, hw⟩ := hi.world
  have hl := hi.live (userProc_eq_some.1 hu).1
  have hle := hw.tf_le hl
  have hready := (hi.hart h).user p hu
  have hv := (hi.thread p).vectors hl
  have hsc : ((trapCore (s.core h) (s.pc h) scause).csr .sscratch).toNat = (s.kernel.procs p).tf :=
    hready.sscratch
  obtain ⟨-, -, -, -, -, hsp, hvec, hsatp, ht2⟩ :=
    run_usertrap s.kernel.mem.bytes hsc (by omega)
  have hcore : (entered s h p scause).core h =
      (run (trapCore (s.core h) (s.pc h) scause) s.kernel.mem.bytes usertrap).1 :=
    Function.update_self ..
  have hmod : ∀ n, BitVec.ofNat 32 (n % 2 ^ 32) = BitVec.ofNat 32 n := fun n => by
    rw [← BitVec.toNat_ofNat, BitVec.ofNat_toNat, BitVec.setWidth_eq]
  rw [hcore, ht2, hsp, hsatp, hvec, hv.uTrap, hv.kSatp, hv.kTrap,
    show s.kernel.mem.bytes.word (s.kernel.procs p).tf = _ from hready.kSp]
  simp only [hmod]
  exact ⟨hready.stvec, trivial, trivial, trivial, trivial⟩

end Wl00.Trap.User
