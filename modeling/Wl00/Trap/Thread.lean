import Wl00.Space.Boot
import Wl00.Trap.User

/-!
# A thread in the kernel and its trapframe

What the trapframe of a process holds while its thread is in the kernel, and that nobody
else's work touches it.

* `Entry.Kept` — the trapframe at each stage between a trap and the return.
* `Ready` — a hart in user mode can take a trap.
* `Inv` — the invariant of all runs; every step goes through `Inv.calm` or `Inv.step`.
* `Inv.work` — a step of a thread that is in the kernel and stays there.
-/

namespace Wl00.Trap.User

open Rv32 Vm Prog
open Sched (Slot)

variable {L : Layout} {progs : Programs} {s s' : Machine L} {h : Hart} {p q : Slot}
  {k : Kernel L} {m m' : Bytes} {tf : Nat} {st st' : Stage} {e : Entry}

/-! ## The trapframe between a trap and the return -/

namespace Entry

/-- Where user code goes on. -/
def resume (e : Entry) : Word := if e.scause = SCAUSE_USER_ECALL then e.pc + 4 else e.pc

/-- The registers with which it does so. -/
def regs (e : Entry) : Reg → Word :=
  match e.ret with
  | some v => Function.update e.x .a0 v
  | none => e.x

/-- The registers in the trapframe: the result of a system call is stored at the end. -/
def held (e : Entry) (st : Stage) : Reg → Word := if st = .ret then e.regs else e.x

/-- How far a system call has come. -/
def Fits (e : Entry) : Stage → Prop
  | .user | .exit _ => True
  | .yield => e.scause ≠ SCAUSE_USER_ECALL ∧ e.ret = none
  | .syscall | .wait _ | .sleep _ _ => e.scause = SCAUSE_USER_ECALL
  | .result v => e.scause = SCAUSE_USER_ECALL ∧ e.ret = some v
  | .ret => e.scause = SCAUSE_USER_ECALL ↔ e.ret ≠ none

/-- What the trapframe at `tf` holds. -/
structure Kept (e : Entry) (m : Bytes) (tf : Nat) (st : Stage) : Prop where
  regs : Saved m tf (e.held st) regSlots
  epc : m.word (tf + epcOff) = e.resume.toNat
  fits : e.Fits st

namespace Kept

theorem congr (he : e.Kept m tf st) (hm : ∀ o < 4096, m' (tf + o) = m (tf + o)) :
    e.Kept m' tf st where
  regs := by
    refine he.regs.congr regSlots_fit.1 fun a h1 h2 => ?_
    obtain ⟨o, rfl⟩ := Nat.exists_eq_add_of_le h1
    exact hm o (by omega)
  epc := by
    rw [← he.epc]
    refine Bytes.word_congr fun i hi => ?_
    rw [Nat.add_assoc]
    exact hm _ (by simp only [epcOff]; omega)
  fits := he.fits

/-- The thread has gone on, and nothing has been stored. -/
theorem move (he : e.Kept m tf st) (hh : e.held st' = e.held st) (hf : e.Fits st') :
    e.Kept m tf st' :=
  ⟨by rw [hh]; exact he.regs, he.epc, hf⟩

/-- The function of a system call has returned. -/
theorem returns (he : e.Kept m tf st) (hst : st ≠ .ret) (hc : e.scause = SCAUSE_USER_ECALL)
    (v : Word) : Kept { e with ret := some v } m tf (.result v) where
  regs := by
    have hh : held { e with ret := some v } (.result v) = e.held st := by simp [held, hst]
    rw [hh]
    exact he.regs
  epc := he.epc
  fits := ⟨hc, rfl⟩

/-- `a0` has been stored. -/
theorem result {v : Word} (he : e.Kept m tf (.result v)) :
    e.Kept (m.storeWord (tf + regOff 10) v.toNat) tf .ret where
  regs := by
    have ha : ∀ s ∈ regSlots, s = (.a0, 60) ∨ (s.1 ≠ .a0 ∧ (s.2 + 4 ≤ 60 ∨ 64 ≤ s.2)) := by decide
    have hr : e.held .ret = Function.update e.x .a0 v := by simp [held, Entry.regs, he.fits.2]
    have hx : e.held (.result v) = e.x := by simp [held]
    intro s hs
    rw [hr]
    rcases ha s hs with rfl | ⟨hne, hapart⟩
    · rw [Function.update_self]
      exact Bytes.word_storeWord v.isLt
    · rw [Function.update_of_ne hne, ← hx, ← he.regs s hs]
      exact Bytes.word_storeWord_of_ne (by simp only [regOff]; omega)
  epc := by
    rw [Bytes.word_storeWord_of_ne (by simp only [regOff, epcOff]; omega)]
    exact he.epc
  fits := ⟨fun _ => by rw [he.fits.2]; simp, fun _ => he.fits.1⟩

end Kept

/-- `usertrap` and the first lines of `u_trap_handle` have saved the registers and the pc. -/
theorem kept_of_saved (hs : Saved m tf e.x regSlots) (he : m.word (tf + epcOff) = e.resume.toNat)
    (hn : e.ret = none) (hf : e.Fits st) : e.Kept m tf st where
  regs := by
    have hh : e.held st = e.x := by simp [held, Entry.regs, hn]
    rw [hh]
    exact hs
  epc := he
  fits := hf

end Entry

/-! ## The invariant -/

/-- Hart `h` is ready for a trap of the process `p`. -/
structure Ready (k : Kernel L) (csr : Csr → Word) (h : Hart) (p : Slot) : Prop where
  stvec : csr .stvec = BitVec.ofNat 32 L.usertrap
  sscratch : (csr .sscratch).toNat = (k.procs p).tf
  kHartid : tfWord k p kHartidOff = h.val
  kSp : tfWord k p kSpOff = ((k.procs p).kstack + PAGE_SIZE) % 2 ^ 32

/-- In the kernel `tp` is the hart's id; in user mode the hart is ready for a trap. -/
structure HartOk (s : Machine L) (h : Hart) : Prop where
  tp : s.userProc h = none → (s.core h).x .tp = hartId h
  running : ∀ p, s.proc h = some p → (s.kernel.procs p).state = .running
  user : ∀ p, s.userProc h = some p → Ready s.kernel (s.core h).csr h p

structure ThreadOk (s : Machine L) (p : Slot) : Prop where
  user : (s.kernel.procs p).Live → s.stage p = .user → (s.kernel.procs p).state = .running
  entry : (s.kernel.procs p).Live → s.stage p ≠ .user → ∀ e, s.entry p = some e →
    e.Kept s.kernel.mem.bytes (s.kernel.procs p).tf (s.stage p)
  vectors : (s.kernel.procs p).Live → Vectors s.kernel p

structure Inv (s : Machine L) : Prop where
  world : ∃ kpt A, World s.kernel kpt A
  hart : ∀ h, HartOk s h
  one : ∀ h h' p, s.proc h = some p → s.proc h' = some p → h = h'
  thread : ∀ p, ThreadOk s p

theorem userProc_eq_some : s.userProc h = some p ↔ s.proc h = some p ∧ s.stage p = .user := by
  simp [Machine.userProc, Option.filter_eq_some_iff]

theorem userProc_eq_none : s.userProc h = none ↔ ∀ p, s.proc h = some p → s.stage p ≠ .user := by
  simp [Machine.userProc, Option.filter_eq_none_iff]

theorem userProc_of_proc (hp : s.proc h = some p) (hst : s.stage p ≠ .user) : s.userProc h = none := by
  refine userProc_eq_none.2 fun q hq => ?_
  rw [hp] at hq
  cases hq
  exact hst

theorem userProc_of_none (hp : s.proc h = none) : s.userProc h = none := by
  rw [Machine.userProc, hp]
  rfl

theorem hartId_toNat (h : Hart) : (hartId h).toNat = h.val := by
  have hlt : h.val < 4 := h.isLt
  rw [hartId, BitVec.toNat_ofNat]
  omega

theorem myproc_eq (ht : (s.core h).x .tp = hartId h) : s.myproc h = s.proc h := by
  unfold Machine.myproc
  simp only [ht, hartId_toNat, h.isLt, dite_true]

/-! ## What a step leaves alone -/

/-- Slot `q` was UNUSED and may have got a process, which does not run yet. -/
structure Fills (k k' : Kernel L) (q : Slot) : Prop where
  unused : (k.procs q).state = .unused
  waits : (k'.procs q).state ≠ .running
  vectors : (k'.procs q).Live → Vectors k' q

/-- Slot `q` in a step that its own thread does not make: it is left alone, or it was UNUSED
and may have got a process. -/
def Calm (s s' : Machine L) (q : Slot) : Prop :=
  (Fills s.kernel s'.kernel q ∧ s'.stage q = .ret ∧ s'.entry q = none) ∨
    (Spares s.kernel s'.kernel q ∧ s'.stage q = s.stage q ∧ s'.entry q = s.entry q)

theorem calm_withKernel (hq : Fills s.kernel k q ∨ Spares s.kernel k q) :
    Calm s (s.withKernel k) q := by
  by_cases hu : (s.kernel.procs q).state = .unused
  · refine .inl ⟨hq.elim id fun hq => ⟨hu, fun hr => ?_, fun hl => ?_⟩, if_pos hu, if_pos hu⟩
    · have := hq.running.1 hr
      rw [hu] at this
      cases this
    · exact absurd hu (hq.live hl).ne_unused
  · exact .inr ⟨hq.resolve_left fun hc => hu hc.unused, if_neg hu, if_neg hu⟩

theorem Calm.thread (hc : Calm s s' q) (ht : ThreadOk s q) : ThreadOk s' q := by
  rcases hc with ⟨hf, hst, he⟩ | ⟨hs, hst, he⟩
  · refine ⟨fun _ hu => ?_, fun _ _ e hq => ?_, hf.vectors⟩
    · rw [hst] at hu
      cases hu
    · rw [he] at hq
      cases hq
  · refine ⟨fun hl hu => ?_, fun hl hu e hq => ?_, fun hl => ?_⟩
    · rw [hst] at hu
      exact hs.running.2 (ht.user (hs.live hl) hu)
    · rw [hst] at hu ⊢
      rw [he] at hq
      obtain ⟨htf, hb⟩ := hs.tf (hs.live hl) hl
      rw [htf]
      exact (ht.entry (hs.live hl) hu e hq).congr hb
    · exact hs.vectors hl (ht.vectors (hs.live hl))

/-- A process that is left alone finds its hart as before. -/
theorem Ready.still {csr : Csr → Word} {k' : Kernel L} (hr : Ready k csr h q) (hs : Spares k k' q)
    (hl : (k.procs q).Live) (hl' : (k'.procs q).Live) : Ready k' csr h q := by
  obtain ⟨htf, hb⟩ := hs.tf hl hl'
  have hw : ∀ o, o + 4 ≤ 4096 → tfWord k' q o = tfWord k q o := by
    intro o ho
    rw [tfWord, tfWord, htf]
    refine Bytes.word_congr fun i hi => ?_
    rw [Nat.add_assoc]
    exact hb _ (by omega)
  refine ⟨hr.stvec, by rw [htf]; exact hr.sscratch, ?_, ?_⟩
  · rw [hw _ (by decide)]
    exact hr.kHartid
  · rw [hw _ (by decide), (hs.enter hl hl').1]
    exact hr.kSp

/-- A hart whose process is left alone. -/
theorem HartOk.still (hh : HartOk s h) (hcore : s'.core h = s.core h) (hproc : s'.proc h = s.proc h)
    (hc : ∀ q, s.proc h = some q → Calm s s' q) : HartOk s' h := by
  -- a process that runs is in no slot that was UNUSED
  have hsp : ∀ q, s.proc h = some q → Spares s.kernel s'.kernel q ∧ s'.stage q = s.stage q := by
    intro q hq
    rcases hc q hq with ⟨hf, -⟩ | hs
    · have hu := hf.unused
      rw [hh.running q hq] at hu
      cases hu
    · exact ⟨hs.1, hs.2.1⟩
  have huser : ∀ q, s'.userProc h = some q ↔ s.userProc h = some q := by
    intro q
    rw [userProc_eq_some, userProc_eq_some, hproc]
    exact and_congr_right fun hq => by rw [(hsp q hq).2]
  refine ⟨fun hn => ?_, fun q hq => ?_, fun q hq => ?_⟩
  · rw [hcore]
    refine hh.tp (Option.eq_none_iff_forall_ne_some.2 fun q hq => ?_)
    rw [(huser q).2 hq] at hn
    cases hn
  · rw [hproc] at hq
    exact (hsp q hq).1.running.2 (hh.running q hq)
  · have hq := (huser q).1 hq
    have hp := (userProc_eq_some.1 hq).1
    have hs := (hsp q hp).1
    rw [hcore]
    exact (hh.user q hq).still hs (.inr (.inl (hh.running q hp)))
      (.inr (.inl (hs.running.2 (hh.running q hp))))

/-- **Nobody is disturbed.** -/
theorem Inv.calm (hi : Inv s) (hw : ∃ kpt A, World s'.kernel kpt A) (hq : ∀ q, Calm s s' q)
    (hcore : s'.core = s.core) (hproc : s'.proc = s.proc) : Inv s' where
  world := hw
  hart h := (hi.hart h).still (by rw [hcore]) (by rw [hproc]) fun q _ => hq q
  one := by
    rw [hproc]
    exact hi.one
  thread q := (hq q).thread (hi.thread q)

/-- **A step of hart `h` and the thread of `p`**, which is on no other hart. -/
theorem Inv.step (hi : Inv s) (hw : ∃ kpt A, World s'.kernel kpt A)
    (hq : ∀ q, q ≠ p → Calm s s' q)
    (hother : ∀ h', h' ≠ h → s'.core h' = s.core h' ∧ s'.proc h' = s.proc h' ∧ s.proc h' ≠ some p)
    (hproc : ∀ q, s'.proc h = some q → q = p) (hh : HartOk s' h) (hp : ThreadOk s' p) : Inv s' where
  world := hw
  hart h' := by
    by_cases hne : h' = h
    · rw [hne]
      exact hh
    · obtain ⟨h1, h2, h3⟩ := hother h' hne
      refine (hi.hart h').still h1 h2 fun q hq' => hq q ?_
      rintro rfl
      exact h3 hq'
  one := by
    -- the process of another hart is not `p`
    have hne : ∀ h' q, h' ≠ h → s'.proc h' = some q → s.proc h' = some q ∧ q ≠ p := by
      intro h' q hh' hq'
      obtain ⟨-, h2, h3⟩ := hother h' hh'
      rw [h2] at hq'
      exact ⟨hq', fun hqp => h3 (hqp ▸ hq')⟩
    intro h₁ h₂ q h1 h2
    by_cases e₁ : h₁ = h <;> by_cases e₂ : h₂ = h
    · rw [e₁, e₂]
    · rw [e₁] at h1
      exact absurd (hproc q h1) (hne h₂ q e₂ h2).2
    · rw [e₂] at h2
      exact absurd (hproc q h2) (hne h₁ q e₁ h1).2
    · exact hi.one _ _ _ (hne h₁ q e₁ h1).1 (hne h₂ q e₂ h2).1
  thread q := by
    by_cases hne : q = p
    · rw [hne]
      exact hp
    · exact (hq q hne).thread (hi.thread q)

/-! ## The thread of a process in the kernel -/

theorem Inv.live (hi : Inv s) (hp : s.proc h = some p) : (s.kernel.procs p).Live :=
  .inr (.inl ((hi.hart h).running p hp))

theorem Inv.kept (hi : Inv s) (hp : s.proc h = some p) (hst : s.stage p ≠ .user)
    (he : s.entry p = some e) : e.Kept s.kernel.mem.bytes (s.kernel.procs p).tf (s.stage p) :=
  (hi.thread p).entry (hi.live hp) hst e he

/-- The thread of `p` works in the kernel and stays on its hart, or gives it up. -/
theorem Inv.work (hi : Inv s) (hp : s.proc h = some p) (hst : s.stage p ≠ .user)
    (hw : ∃ kpt A, World s'.kernel kpt A) (hq : ∀ q, q ≠ p → Calm s s' q)
    (hcore : s'.core = s.core) (hst' : s'.stage p ≠ .user)
    (hproc : (s'.proc = s.proc ∧ (s'.kernel.procs p).state = .running) ∨
      s'.proc = Function.update s.proc h none)
    (hv : (s'.kernel.procs p).Live → Vectors s'.kernel p)
    (he : (s'.kernel.procs p).Live → ∀ e, s'.entry p = some e →
      e.Kept s'.kernel.mem.bytes (s'.kernel.procs p).tf (s'.stage p)) : Inv s' := by
  have hown : ∀ q, s'.proc h = some q → q = p ∧ (s'.kernel.procs p).state = .running := by
    intro q hq'
    rcases hproc with ⟨hsame, hr⟩ | hnone
    · rw [hsame, hp] at hq'
      cases hq'
      exact ⟨rfl, hr⟩
    · rw [hnone, Function.update_self] at hq'
      cases hq'
  have hkern : s'.userProc h = none := by
    refine userProc_eq_none.2 fun q hq' => ?_
    rw [(hown q hq').1]
    exact hst'
  refine hi.step (h := h) (p := p) hw hq (fun h' hne => ⟨by rw [hcore], ?_, fun hp' => ?_⟩)
    (fun q hq' => (hown q hq').1) ⟨fun _ => ?_, fun q hq' => ?_, fun q hq' => ?_⟩
    ⟨fun _ hu => absurd hu hst', fun hl _ => he hl, hv⟩
  · rcases hproc with ⟨hsame, -⟩ | hnone
    · rw [hsame]
    · rw [hnone, Function.update_of_ne hne]
  · exact hne (hi.one _ _ _ hp' hp)
  · rw [hcore]
    exact (hi.hart h).tp (userProc_of_proc hp hst)
  · rw [(hown q hq').1]
    exact (hown q hq').2
  · rw [hkern] at hq'
    cases hq'

/-- The thread goes on, and nothing else happens. -/
theorem Inv.goto (hi : Inv s) (hp : s.proc h = some p) (hst : s.stage p ≠ .user) (hst' : st ≠ .user)
    (he : ∀ e, s.entry p = some e → e.Kept s.kernel.mem.bytes (s.kernel.procs p).tf st) :
    Inv (s.goto p st) := by
  have hself : (s.goto p st).stage p = st := Function.update_self ..
  refine hi.work hp hst hi.world (fun q hq => .inr ⟨.refl _ q, Function.update_of_ne hq _ _, rfl⟩) rfl
    (by rw [hself]; exact hst') (.inl ⟨rfl, (hi.hart h).running p hp⟩) (hi.thread p).vectors
    fun _ e he' => ?_
  rw [hself]
  exact he e he'

/-- The stages of a system call before its function returns. -/
def Stage.Calling : Stage → Prop
  | .syscall | .wait _ | .sleep _ _ => True
  | _ => False

theorem Stage.Calling.ne_user (hc : st.Calling) : st ≠ .user := by
  rintro rfl
  exact hc

theorem Stage.Calling.ecall (hc : st.Calling) (he : e.Fits st) : e.scause = SCAUSE_USER_ECALL := by
  cases st
  case syscall => exact he
  case wait addr => exact he
  case sleep start n => exact he
  all_goals exact hc.elim

theorem Inv.returns (hi : Inv s) (hp : s.proc h = some p) (hc : (s.stage p).Calling) (v : Word) :
    Inv (s.returns p v) := by
  have hself : (s.returns p v).stage p = .result v := Function.update_self ..
  refine hi.work hp hc.ne_user hi.world (fun q hq => .inr ⟨.refl _ q, ?_, ?_⟩) rfl
    (by rw [hself]; simp) (.inl ⟨rfl, (hi.hart h).running p hp⟩) (hi.thread p).vectors fun _ e he => ?_
  · exact Function.update_of_ne hq _ _
  · exact Function.update_of_ne hq _ _
  · rw [show (s.returns p v).entry p = (s.entry p).map fun e => { e with ret := some v } from
      Function.update_self .., Option.map_eq_some_iff] at he
    obtain ⟨e₀, he₀, rfl⟩ := he
    have hk := hi.kept hp hc.ne_user he₀
    rw [hself]
    refine hk.returns ?_ (hc.ecall hk.fits) v
    intro hr
    rw [hr] at hc
    exact hc

/-- The kernel has worked, and the thread of `p` gives up its hart. -/
theorem Inv.leave (hi : Inv s) (hp : s.proc h = some p) (hst : s.stage p ≠ .user)
    (hw : ∃ kpt A, World k kpt A) (hk : Keeps s.kernel k p)
    (hq : ∀ q, q ≠ p → Spares s.kernel k q) :
    Inv { s.withKernel k with proc := Function.update s.proc h none } := by
  have hu : (s.kernel.procs p).state ≠ .unused := (hi.live hp).ne_unused
  have hstage : (s.withKernel k).stage p = s.stage p := if_neg hu
  have hentry : (s.withKernel k).entry p = s.entry p := if_neg hu
  refine hi.work hp hst hw (fun q hne => calm_withKernel (.inr (hq q hne))) rfl ?_ (.inr rfl)
    (fun hl => hk.vectors hl ((hi.thread p).vectors (hi.live hp))) fun hl e he => ?_
  · rw [hstage]
    exact hst
  · rw [hentry] at he
    rw [hstage]
    obtain ⟨htf, hb⟩ := hk.tf (hi.live hp) hl
    change e.Kept k.mem.bytes (k.procs p).tf _
    rw [htf]
    exact (hi.kept hp hst he).congr hb

/-- The kernel has worked, and nobody has noticed. -/
theorem Inv.withKernel (hi : Inv s) (hw : ∃ kpt A, World k kpt A)
    (hq : ∀ q, Fills s.kernel k q ∨ Spares s.kernel k q) : Inv (s.withKernel k) :=
  hi.calm hw (fun q => calm_withKernel (hq q)) rfl rfl

/-! ## The kernel at work -/

theorem exec_eq_some {α : Type} {f : KernelM L α} {r : α × Machine L} (hn : s.exec f = some r) :
    ∃ k, f s.kernel = .ok (r.1, k) ∧ r.2 = s.withKernel k := by
  unfold Machine.exec at hn
  cases hf : f s.kernel with
  | error err =>
      rw [hf] at hn
      cases hn
  | ok x =>
      rw [hf] at hn
      cases hn
      exact ⟨_, rfl, rfl⟩

/-- What the scheduler does to `p` itself is no more of a change. -/
theorem reap_spec {kpt : Space} {A : Slot → Assets} (hw : World k kpt A) (p : Slot) :
    wp (reap p) (fun _ k' => (∃ A', World k' kpt A') ∧ ∀ q, Spares k k' q) k := by
  unfold reap
  rw [wp_bind, wp_getProc]
  split_ifs with hz
  · refine (hw.releaseproc p).mono fun _ k' hk => ⟨⟨_, hk.2.1⟩, fun q => ?_⟩
    by_cases hq : q = p
    · subst hq
      exact spares_reset (by rw [hk.1, Function.update_self]) (by rw [hz.1]; decide)
    · exact hk.2.2 q hq
  · rw [wp_pure]
    exact ⟨⟨A, hw⟩, fun q => .refl k q⟩

theorem Inv.sched (hi : Inv { s with proc := Function.update s.proc h none })
    (hn : s.sched h p = some s') : Inv s' := by
  obtain ⟨kpt, A, hw⟩ := hi.world
  obtain ⟨r, hr, rfl⟩ := Option.map_eq_some_iff.1 hn
  obtain ⟨k, hk, hr⟩ := exec_eq_some hr
  obtain ⟨hw', hs⟩ := (reap_spec hw p).of_run hk
  rw [hr]
  exact hi.withKernel ⟨kpt, hw'⟩ fun q => .inr (hs q)

/-- The timer's tick. -/
theorem clockintr_spec (hi : Inv s) {dev : Nat} (hn : s.clockintr h dev = some s') :
    Inv s' ∧ s'.core = s.core ∧ s'.proc = s.proc ∧
      ∀ q, (s.kernel.procs q).state ≠ .unused → s'.stage q = s.stage q ∧ s'.entry q = s.entry q := by
  unfold Machine.clockintr at hn
  split_ifs at hn
  · obtain ⟨kpt, A, hw⟩ := hi.world
    obtain ⟨r, hr, rfl⟩ := Option.map_eq_some_iff.1 hn
    obtain ⟨k, hk, hr⟩ := exec_eq_some hr
    obtain ⟨hw', hs⟩ := (hw.wakeup _).of_run hk
    have hi' : Inv { s with ticks := s.ticks + 1 } :=
      hi.calm hi.world (fun q => .inr ⟨.refl _ q, rfl, rfl⟩) rfl rfl
    rw [hr]
    exact ⟨hi'.withKernel ⟨kpt, A, hw'⟩ fun q => .inr (hs q), rfl, rfl,
      fun q hq => ⟨if_neg hq, if_neg hq⟩⟩
  · cases hn
    exact ⟨hi, rfl, rfl, fun _ _ => ⟨rfl, rfl⟩⟩

/-- `p` is READY or WAITING and gives up its hart. -/
theorem Inv.block (hi : Inv s) (hp : s.proc h = some p) (hst : s.stage p ≠ .user) {f : Proc → Proc}
    (hf : ∀ x, (f x).tf = x.tf ∧ (f x).kstack = x.kstack)
    (hw : ∃ kpt A, World (s.kernel.setProc p f) kpt A)
    (hn : (s.withKernel (s.kernel.setProc p f)).sched h p = some s') : Inv s' := by
  refine Inv.sched (hi.leave hp hst hw ?_ fun q hq => ?_) hn
  · refine keeps_fields rfl rfl (fun _ => hi.live hp) ?_ ?_
    · rw [Kernel.setProc_self]
      exact (hf _).1
    · rw [Kernel.setProc_self]
      exact (hf _).2
  · exact spares_fields rfl rfl (by rw [Kernel.setProc_ne hq])

theorem Inv.yield (hi : Inv s) (hp : s.proc h = some p) (hst : s.stage p ≠ .user)
    (hn : yield progs s h p = some s') : Inv s' := by
  obtain ⟨kpt, A, hw⟩ := hi.world
  obtain ⟨r, hr, hn⟩ := Option.bind_eq_some_iff.1 hn
  obtain ⟨k, hk, hr⟩ := exec_eq_some hr
  have hstep : wp (Op.run progs (.yield p)) (fun _ k' => ∃ A', World k' kpt A') s.kernel :=
    world_step hw ((hi.hart h).running p hp)
  have hw' := hstep.of_run hk
  cases hk
  rw [hr] at hn
  exact hi.block (f := fun pp => { pp with state := .ready }) hp hst (fun _ => ⟨rfl, rfl⟩)
    ⟨kpt, hw'⟩ hn

end Wl00.Trap.User
