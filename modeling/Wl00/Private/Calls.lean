import Wl00.Private.View

/-!
# `fork`, `wait` and `exit` as a process sees them

* `Exiting.user_releaseproc`, `kexit_user` — when a process ends, nobody else notices.
* `World.copyStatus_user` — `wait` stores the status in the memory of its caller.
* `step_procalloc`, `step_fork`, `step_kexit`, `step_wait` — the calls are steps of the machine.
-/

namespace Wl00.Vm

open Prog Private
open Sched (Slot Table Row IsFirst Effect succPid NPROC ProcState)

variable {L : Layout} {k k' : Kernel L} {s s' : Mem L} {p q i : Slot} {kpt : Space}
  {A : Slot → Assets} {progs : Programs}

/-! ## Views -/

theorem Kernel.view_eq {T : Table} {v : Int} {P : Slot → Option Process} (hr : k.rows = T)
    (hv : k.currPid = v) (hu : k.user = P) : k.view = ⟨T, v, P⟩ := by
  rw [Kernel.view, hr, hv, hu]

/-- A slot has changed, and its process is where it was. -/
theorem Kernel.view_setProc {f : Proc → Proc} (hl : (f (k.procs p)).Live ↔ (k.procs p).Live)
    (htf : (f (k.procs p)).tf = (k.procs p).tf) (hpt : (f (k.procs p)).pt = (k.procs p).pt) :
    (k.setProc p f).view = k.view.setRow p fun _ => (f (k.procs p)).row := by
  refine view_eq (rows_setProc f) rfl (funext fun q => ?_)
  by_cases hq : q = p
  · subst hq
    exact user_fields rfl (by rw [setProc_self, hl]) (by rw [setProc_self, htf])
      (by rw [setProc_self, hpt])
  · exact user_fields rfl (by rw [setProc_ne hq]) (by rw [setProc_ne hq]) (by rw [setProc_ne hq])

theorem not_live_of_state {x : Proc} (h : x.state = .unused ∨ x.state = .new ∨ x.state = .zombie) :
    ¬x.Live := by
  unfold Proc.Live
  rcases h with h | h | h <;> rw [h] <;> simp

/-- A slot is emptied in which no process runs. -/
theorem World.user_releaseproc (h : World k kpt A) (hz : (k.procs q).state = .zombie) :
    wp (Vm.releaseproc q) (fun _ k' => k'.user = k.user ∧ k'.currPid = k.currPid ∧
      k'.procs = Function.update k.procs q (k.procs q).reset) k := by
  refine (releaseproc_spec (h.slot q).mem (h.held q)).mono fun _ k' hk => ?_
  obtain ⟨hf, hk⟩ := hk
  have hp : k'.procs = Function.update k.procs q (k.procs q).reset := by rw [hk]
  refine ⟨funext fun j => ?_, by rw [hk], hp⟩
  by_cases hj : j = q
  · subst hj
    rw [Kernel.user_of_not_live (not_live_of_state (.inr (.inr hz))),
      Kernel.user_of_not_live (not_live_of_state (.inl ?_))]
    rw [hp, Function.update_self]
    rfl
  · exact h.user_other hf hj (by rw [hp, Function.update_of_ne hj])

theorem rows_congr (hp : k'.procs = k.procs) : k'.rows = k.rows :=
  funext fun j => congrArg Proc.row (congrFun hp j)

theorem rows_update {x : Proc} (hp : k'.procs = Function.update k.procs q x) :
    k'.rows = Function.update k.rows q x.row := by
  funext j
  unfold Kernel.rows
  rw [hp]
  by_cases hj : j = q
  · subst hj
    simp
  · simp [hj]

/-! ## `procalloc` and `fork` -/

theorem step_procalloc {r : Option Slot} (h : World k kpt A) (hrun : procalloc k = .ok (r, k')) :
    Step progs k.view .procalloc k'.view := by
  have hends := procalloc_ends.of_run hrun
  rcases (procalloc_spec h.reset).of_run hrun with ⟨-, rfl, hfull⟩ | ⟨i, hi, hv, -, hk⟩
  · exact .procallocFull hfull
  rcases hk with ⟨-, hp, hf, -⟩ | ⟨rfl, t, ks, sp, -, -, -, hf, hp⟩
  · have hview : k'.view = k.view.usePid :=
      Kernel.view_eq (rows_congr hp) hv (funext fun j => h.user_frame hf (by rw [hp]))
    rw [hview]
    exact .procallocFail i hi
  · have hfirst : IsFirst (Unused k.rows) i := by
      rcases hends with ⟨hc, -, -⟩ | ⟨j, hj, ⟨hc, -⟩ | ⟨hc, -⟩⟩
      · cases hc
      · cases hc
      · cases hc
        exact hj
    have hstep : Step progs k.view .procalloc _ := .procalloc i hfirst
    have hview : k'.view =
        (k.view.setRow i fun r => { r with state := .new, pid := k.currPid }).usePid := by
      refine Kernel.view_eq (rows_update hp) hv (funext fun j => ?_)
      by_cases hj : j = i
      · subst hj
        refine (Kernel.user_of_not_live (not_live_of_state (.inr (.inl ?_)))).trans
          (Kernel.user_of_not_live (not_live_of_state (.inl hi))).symm
        rw [hp, Function.update_self]
        rfl
      · exact h.user_same (by rw [hp, Function.update_of_ne hj])
          (by rw [hp, Function.update_of_ne hj]) (by rw [hp, Function.update_of_ne hj])
          fun x hx => hf.same x (h.held j x hx) id
    rw [hview]
    exact hstep

/-- The child's registers. -/
theorem TrapframeCopy.userRegs {m m' : Bytes} {tp t : Nat} (h : TrapframeCopy m m' tp t) :
    userRegs m' (t * 4096) = Function.update (userRegs m (tp * 4096)) 10 0 := by
  funext i
  by_cases h10 : i = 10
  · subst h10
    rw [Function.update_self, Vm.userRegs, if_pos (by decide)]
    exact h.a0
  · rw [Function.update_of_ne h10]
    unfold Vm.userRegs
    split_ifs with hi
    · exact h.word (by simp only [regOff]; omega) (by simp only [regOff, sizeofTrapframe]; omega)
        (by simp only [regOff]; omega)
    · rfl

/-- The child's memory. -/
theorem Copies.userMemory {sp sp' : Space} {D : Set Nat} (h : Holds L s.bytes sp) (hs : Shape L sp D)
    (h' : Holds L s'.bytes sp') (hs' : Shape L sp' D) (hc : Copies s s' sp sp' D) :
    userMemory s'.bytes (sp'.root * 4096) = userMemory s.bytes (sp.root * 4096) := by
  funext a
  by_cases hD : a / 4096 ∈ D
  · obtain ⟨hfl, hb⟩ := hc _ hD
    have hmod : sp'.pte (a / 4096) % 32 = sp.pte (a / 4096) % 32 := by omega
    rw [h.userMemory_of_mem hs hD, h'.userMemory_of_mem hs' hD, hmod, Space.byte, Space.byte,
      hb _ (Nat.mod_lt _ (by decide))]
  · rw [h.userMemory_of_not_mem hs hD, h'.userMemory_of_not_mem hs' hD]

/-- **The child is a copy of its parent.** -/
theorem Forked.user {np : Slot} {tp t kp ks : Nat} {sp sp' : Space} (h : World k kpt A)
    (hA : A p = ⟨some tp, some kp, some (sp, userDom (k.procs p).sz)⟩)
    (hf : Forked k k' p np tp sp t ks sp') :
    k'.user np = some (userProcess k.mem.bytes (k.procs p)).child := by
  have hm := (h.slot p).mem
  rw [hA] at hm
  have hok := hm.space sp _ rfl
  have hsz : (k'.procs np).sz = (k.procs p).sz := by
    rw [hf.procs, Function.update_self]
    rfl
  have hok' := hf.mem.space sp' _ rfl
  have hlive : (k'.procs np).Live := by
    rw [hf.procs, Function.update_self]
    exact .inl rfl
  have hmem := Copies.userMemory hok.holds hok.shape hok'.holds hok'.shape hf.copies
  rw [Kernel.user_of_live hlive, userProcess, hf.mem.tf_eq, hf.mem.pt_eq]
  simp only [pageAddr, Option.map_some]
  rw [hmem, hf.trapframe.userRegs, hf.trapframe.word (by decide) (by decide) (by decide),
    Process.child, userProcess, hm.tf_eq, hm.pt_eq]
  rfl

theorem step_fork {r : Int} (h : World k kpt A) (hr : (k.procs p).state = .running)
    (hrun : fork p k = .ok (r, k')) : Step progs k.view (.fork p) k'.view := by
  have hl : (k.procs p).Live := .inr (.inl hr)
  have heff := fork_effect.of_run hrun
  rcases (fork_spec h hl).of_run hrun with ⟨-, hno, -⟩ | ⟨-, tp, kp, sp, np, t, ks, sp', hA, hf⟩
  · have hu : k'.user = k.user := funext fun j => h.user_frame hno.frame (by rw [hno.procs])
    have hsame : k'.rows = k.rows := rows_congr hno.procs
    generalize hT : k'.rows = T, hv : k'.currPid = v at heff
    cases heff with
    | forkFull hfull =>
        have hview : k'.view = k.view := Kernel.view_eq hsame hv hu
        rw [hview]
        exact .forkFull p hfull
    | forkFail i hi =>
        have hview : k'.view = k.view.usePid := Kernel.view_eq hsame hv hu
        rw [hview]
        exact .forkFail p i hi.1
    | fork i hi =>
        have hrow := congrFun (hsame.symm.trans hT) i
        rw [Function.update_self] at hrow
        cases hi.1.symm.trans (congrArg Row.state hrow)
  · have hrows := rows_update hf.procs
    have hnp : (k'.rows np).state = .ready := by
      rw [hrows, Function.update_self]
      rfl
    -- the slot that `procalloc` has found
    have hfirst : IsFirst (Unused k.rows) np := by
      have hu : (k.rows np).state = .unused := hf.unused
      have hother : ∀ {i : Slot} {x : Row}, k'.rows = Function.update k.rows i x → np = i := by
        intro i x he
        by_contra hne
        rw [he, Function.update_of_ne hne, hu] at hnp
        cases hnp
      generalize k'.rows = T, k'.currPid = v at heff hnp hother
      cases heff with
      | forkFull hfull => exact absurd hu (hfull np)
      | forkFail i hi =>
          obtain rfl := hother rfl
          rw [Function.update_self] at hnp
          cases hnp
      | fork i hi =>
          obtain rfl := hother rfl
          exact hi
    have hstep : Step progs k.view (.fork p) _ := .fork p np _ hfirst (Kernel.user_of_live hl)
    have hview : k'.view = ((k.view.setRow np fun r => { r with
          pid := k.currPid, parent := some p, state := .ready }).setProcess np
        (some (userProcess k.mem.bytes (k.procs p)).child)).usePid := by
      refine Kernel.view_eq hrows hf.currPid (funext fun j => ?_)
      by_cases hj : j = np
      · subst hj
        exact (hf.user h hA).trans (State.setProcess_self _).symm
      · refine Eq.trans ?_ (State.setProcess_ne hj _).symm
        exact h.user_same (by rw [hf.procs, Function.update_of_ne hj])
          (by rw [hf.procs, Function.update_of_ne hj]) (by rw [hf.procs, Function.update_of_ne hj])
          fun x hx => hf.frame.same x (h.held j x hx) id
    rw [hview]
    exact hstep

/-! ## `kexit` -/

/-- While a process exits, a zombie is released. -/
theorem Exiting.user_releaseproc (h : Exiting k p kpt A) (hq : q ≠ p)
    (hz : (k.procs q).state = .zombie) :
    wp (Vm.releaseproc q) (fun _ k' => ∀ j, j ≠ p → k'.user j = k.user j) k := by
  have hm := (h.world.slot q).mem
  rw [Kernel.dying, Kernel.setProc_ne hq] at hm
  refine (releaseproc_spec (k := k) hm (h.world.held q)).mono fun _ k' hk j hj => ?_
  obtain ⟨hf, hk⟩ := hk
  have hp : k'.procs = Function.update k.procs q (k.procs q).reset := by rw [hk]
  by_cases hjq : j = q
  · subst hjq
    rw [Kernel.user_of_not_live (not_live_of_state (.inr (.inr hz))),
      Kernel.user_of_not_live (not_live_of_state (.inl ?_))]
    rw [hp, Function.update_self]
    rfl
  · -- the world is that of `k.dying p`, which has the same slot `j`
    have hs : (k.dying p).procs j = k.procs j := by rw [Kernel.dying, Kernel.setProc_ne hj]
    have hd : (k.dying p).user j = k.user j :=
      Kernel.user_fields rfl (by rw [hs]) (by rw [hs]) (by rw [hs])
    rw [← hd]
    exact h.world.user_other hf hjq (by rw [hp, Function.update_of_ne hjq, hs])

theorem handOver_user (h : Exiting k p kpt A) (hq : (k.procs q).parent ≠ none)
    (reaper : Option Slot) :
    wp (handOver q reaper) (fun _ k' => ∀ j, j ≠ p → k'.user j = k.user j) k := by
  have hu : (k.procs q).state ≠ .unused := by
    by_cases hqp : q = p
    · subst hqp
      rw [h.running]
      decide
    · have hs := h.world.slot q
      rw [Kernel.dying, Kernel.setProc_ne hqp] at hs
      exact hs.ne_unused hq
  have h₁ : Exiting (k.setProc q fun x => { x with parent := reaper }) p kpt A :=
    h.setProc (fun _ => ⟨rfl, rfl, rfl, rfl, rfl⟩) hu
  have hs : ∀ j, (k.setProc q fun x => { x with parent := reaper }).user j = k.user j :=
    fun j => Kernel.user_setProc (fun _ => Iff.rfl) fun _ => ⟨rfl, rfl⟩
  unfold handOver
  rw [wp_bind, wp_modifyProc, wp_bind, wp_getProc]
  split_ifs with hz hr
  · rw [wp_bind]
    have hqp : q ≠ p := by
      rintro rfl
      rw [h₁.running] at hz
      cases hz
    refine (h₁.user_releaseproc hqp hz).mono fun _ k' hk => ?_
    rw [wp_pure]
    exact fun j hj => (hk j hj).trans (hs j)
  · rw [wp_pure]
    exact fun j _ => hs j
  · rw [wp_pure]
    exact fun j _ => hs j

theorem handOverAll_user (h : Exiting k p kpt A) (reaper : Option Slot) (l : List Slot)
    (gave : Bool) :
    wp (handOverAll p reaper l gave) (fun _ k' => ∀ j, j ≠ p → k'.user j = k.user j) k := by
  induction l generalizing k A gave with
  | nil =>
      rw [handOverAll, wp_pure]
      exact fun _ _ => rfl
  | cons q l ih =>
      rw [handOverAll, wp_bind, wp_getProc]
      split_ifs with hq
      · have hpar : (k.procs q).parent ≠ none := by
          rw [hq]
          simp
        rw [wp_bind]
        refine ((handOver_spec h hpar reaper).and (handOver_user h hpar reaper)).mono
          fun z k₁ hk => ?_
        obtain ⟨⟨⟨A₁, h₁⟩, -⟩, hu₁⟩ := hk
        exact (ih h₁ _).mono fun _ k₂ hu₂ j hj => (hu₂ j hj).trans (hu₁ j hj)
      · exact ih h gave

theorem Proc.live_wake (c : Option Sched.Chan) (x : Proc) : (x.wake c).Live ↔ x.Live := by
  unfold Proc.wake
  split_ifs with hc
  · exact ⟨fun _ => .inr (.inr hc.2), fun _ => .inl rfl⟩
  · exact Iff.rfl

theorem Proc.wake_tf (c : Option Sched.Chan) (x : Proc) : (x.wake c).tf = x.tf := by
  unfold Proc.wake
  split_ifs <;> rfl

theorem Proc.wake_pt (c : Option Sched.Chan) (x : Proc) : (x.wake c).pt = x.pt := by
  unfold Proc.wake
  split_ifs <;> rfl

/-- To be woken up is no change. -/
theorem wakeup_user (k : Kernel L) (c : Option Sched.Chan) :
    wp (wakeup c) (fun _ k' => k'.user = k.user) k := by
  rw [wakeup, wp_modify]
  exact funext fun j =>
    Kernel.user_fields rfl (Proc.live_wake c _) (Proc.wake_tf c _) (Proc.wake_pt c _)

theorem wakeupIf_user (k : Kernel L) (b : Bool) (c : Option Sched.Chan) :
    wp (wakeupIf b c) (fun _ k' => k'.user = k.user) k := by
  unfold wakeupIf
  split_ifs
  · exact wakeup_user k c
  · rw [wp_pure]

/-- The process in slot `p` gives its space back. -/
theorem World.user_exiting (h : World k kpt A) (hr : (k.procs p).state = .running) :
    wp (onMem (uvmfree (k.procs p).pt (k.procs p).sz))
      (fun _ k' => ∀ j, j ≠ p → k'.user j = k.user j) k := by
  obtain ⟨t, ks, sp, hA, -, -, hpt, hok⟩ := h.space (.inr (.inl hr))
  have hheld := h.held p
  have hsub : sp.tables ∪ sp.frames (userDom (k.procs p).sz) ⊆ (A p).pages := by
    rw [hA]
    exact fun x hx => .inl (.inr hx)
  rw [wp_onMem, hpt]
  refine (uvmfree_spec hok.holds hok.within (fun x hx => hheld x (hsub hx)) hok.aligned
    hok.le).mono fun _ s₁ hf j hj => ?_
  exact h.user_other (hf.widen hheld hsub) hj rfl

/-- **When a process ends, nobody else notices.** -/
theorem kexit_user (h : World k kpt A) (hr : (k.procs p).state = .running) (status : Int) :
    wp (kexit p status) (fun _ k' => k'.user = Function.update k.user p none) k := by
  unfold kexit
  rw [wp_bind, wp_getProc, wp_bind]
  refine ((h.exiting hr).and (h.user_exiting hr)).mono fun _ k₁ hk => ?_
  obtain ⟨⟨⟨A₁, h₁⟩, -⟩, hu₁⟩ := hk
  rw [wp_bind, wp_modifyProc, wp_bind, wp_get, wp_bind]
  refine (handOverAll_user h₁ _ _ _).mono fun gave k₂ hu₂ => ?_
  rw [wp_bind]
  refine (wakeupIf_user k₂ _ _).mono fun _ k₃ hu₃ => ?_
  rw [wp_bind, wp_getProc, wp_bind]
  refine (wakeupIf_user k₃ _ _).mono fun _ k₄ hu₄ => ?_
  rw [wp_modifyProc]
  funext j
  by_cases hj : j = p
  · subst hj
    rw [Function.update_self]
    exact Kernel.user_of_not_live (not_live_of_state (.inr (.inr (by rw [Kernel.setProc_self]))))
  · have hlast : (k₄.setProc p fun pp => { pp with xstate := status, state := .zombie }).user j =
        k₄.user j :=
      Kernel.user_fields rfl (by rw [Kernel.setProc_ne hj]) (by rw [Kernel.setProc_ne hj])
        (by rw [Kernel.setProc_ne hj])
    have hpt : (k₁.setProc p fun pp => { pp with pt := 0 }).user j = k₁.user j :=
      Kernel.user_fields rfl (by rw [Kernel.setProc_ne hj]) (by rw [Kernel.setProc_ne hj])
        (by rw [Kernel.setProc_ne hj])
    rw [Function.update_of_ne hj, hlast, hu₄, hu₃, hu₂ j hj, hpt, hu₁ j hj]

theorem step_kexit {status : Int} (h : World k kpt A) (hr : (k.procs p).state = .running)
    (hrun : kexit p status k = .ok ((), k')) : Step progs k.view (.exit p status) k'.view := by
  have hu := (kexit_user h hr status).of_run hrun
  have heff := (kexit_effect status).of_run hrun
  rw [Kernel.view_eq rfl rfl hu]
  exact .exit p status _ _ heff

/-! ## `wait` -/

/-- Work on the user pages of a process. -/
theorem World.user_touch {t ks : Nat} {sp : Space} {D : Set Nat} {x : Process} {m : Memory}
    (h : World k kpt A) (hA : A p = ⟨some t, some ks, some (sp, D)⟩)
    (hf : Frame k.mem s (sp.frames D) (sp.frames D)) (hx : k.user p = some x)
    (hm : userMemory s.bytes (k.procs p).pt = m) :
    ({ k with mem := s } : Kernel L).user = Function.update k.user p (some { x with mem := m }) := by
  have hslot := (h.slot p).mem
  have hheld := h.held p
  have hsub : sp.frames D ⊆ (A p).pages := by
    rw [hA]
    exact fun y hy => .inl (.inr (.inr hy))
  have hl : (k.procs p).Live := by
    by_contra hc
    rw [Kernel.user_of_not_live hc] at hx
    cases hx
  rw [Kernel.user_of_live hl] at hx
  cases hx
  funext j
  by_cases hj : j = p
  · subst hj
    have ht : SamePage k.mem.bytes s.bytes t := by
      refine hf.same t (hheld t ?_) fun hc => ?_
      · rw [hA]
        exact .inl (.inl rfl)
      · rw [hA] at hslot
        exact hslot.apart.tf_space t (.inr hc) rfl
    have htf : (k.procs j).tf = t * 4096 := by
      rw [hslot.tf_eq, hA]
      rfl
    rw [Function.update_self, Kernel.user_of_live (k := { k with mem := s }) hl, userProcess, hm,
      htf, ht.userRegs, ht.word (by decide), userProcess, htf]
  · rw [Function.update_of_ne hj]
    have hother : ({ k with mem := s } : Kernel L).user j = k.user j :=
      h.user_other (hf.widen_self hheld hsub) hj rfl
    exact hother

/-- **`wait` stores the status in the memory of its caller**, as far as it can. -/
theorem World.copyStatus_user {addr : Nat} {x : Process} (h : World k kpt A)
    (hx : k.user p = some x) (hl : (k.procs p).Live) (ha : addr < 2 ^ 32) (hne : addr ≠ 0)
    (status : Int) :
    wp (copyStatus (k.procs p).pt addr status) (fun r s =>
      (r < 0 ↔ ¬x.mem.Writable addr 4) ∧ ({ k with mem := s } : Kernel L).user =
        Function.update k.user p (some (x.stored addr (intBytes status)))) k.mem := by
  obtain ⟨t, ks, sp, hA, -, -, hpt, hok⟩ := h.space hl
  have hxm : x.mem = userMemory k.mem.bytes (sp.root * 4096) := by
    rw [Kernel.user_of_live hl] at hx
    cases hx
    rw [userProcess, hpt]
  have hheld : Held k.mem (sp.tables ∪ sp.frames (userDom (k.procs p).sz)) := by
    intro y hy
    refine h.held p y ?_
    rw [hA]
    exact .inl (.inr hy)
  have hlen : (intBytes status).length < 2 ^ 32 := by
    simp [intBytes]
  rw [copyStatus, if_pos hne, hpt]
  refine ((copyout_spec hok.holds hok.shape hheld ha hlen).and
    (copyout_bytes (hok.holds.scattered hok.shape) ha hlen)).mono fun r s₁ hc => ?_
  obtain ⟨⟨-, hf⟩, j, hreach, hr, hw⟩ := hc
  have hholds := (hok.holds.frame_user hok.shape.owns hheld hf).1
  refine ⟨?_, h.user_touch hA hf hx ?_⟩
  · rw [hxm, writable_iff, show 4 = (intBytes status).length from rfl, ← hreach.eq_iff, hr]
    split_ifs with hj
    · simp [hj]
    · simp [hj]
  · rw [hpt, hxm]
    exact userMemory_written hok.holds hok.shape hholds hreach hw hlen

/-- The zombie that `wait` finds. -/
theorem isFirst_dead (hq : (List.finRange NPROC).find? (fun q =>
    (k.procs q).parent = some p ∧ (k.procs q).state = .zombie) = some q) :
    IsFirst (k.rows.Dead p) q := isFirst_of_find (P := k.rows.Dead p) hq

theorem step_wait {addr : UInt32} {r : Option Int} (h : World k kpt A)
    (hr : (k.procs p).state = .running) (hrun : wait p addr.toNat k = .ok (r, k')) :
    Step progs k.view (.wait p addr) k'.view := by
  have hl : (k.procs p).Live := .inr (.inl hr)
  refine wp.of_run (Q := fun _ k' => Step progs k.view (.wait p addr) k'.view) ?_ hrun
  unfold wait
  rw [wp_bind, wp_get]
  split
  · next q hq =>
    have hfirst := isFirst_dead hq
    have hz : (k.procs q).state = .zombie := hfirst.1.2
    unfold waitReap
    simp only [wp_bind, wp_getProc, wp_onMem]
    by_cases ha : addr.toNat = 0
    · -- no status is asked for
      rw [copyStatus, if_neg (not_not.2 ha), wp_pure, if_neg (by decide), wp_bind]
      refine (h.user_releaseproc hz).mono fun _ k₁ hk => ?_
      obtain ⟨hu, hv, hp⟩ := hk
      rw [wp_pure, wp_pure, Kernel.view_eq (rows_update hp) hv hu]
      exact .waitReap p addr q (UInt32.toNat_inj.1 ha) hfirst
    · have hstep : Step progs k.view (.wait p addr) _ := .waitReport p addr q _
        (fun hc => ha (by rw [hc]; rfl)) hfirst (Kernel.user_of_live hl)
      refine ((copyStatus_spec h hl addr.toNat_lt _).and
        (h.copyStatus_user (Kernel.user_of_live hl) hl addr.toNat_lt ha _)).mono fun r s₁ hk => ?_
      obtain ⟨⟨h₁, -⟩, hneg, hu₁⟩ := hk
      split_ifs with hr
      · rw [wp_pure, wp_pure, Kernel.view_eq rfl rfl hu₁]
        rw [State.setRow, if_neg (hneg.1 hr), Function.update_eq_self] at hstep
        exact hstep
      · rw [wp_bind]
        refine (h₁.user_releaseproc hz).mono fun _ k₂ hk => ?_
        obtain ⟨hu₂, hv, hp⟩ := hk
        rw [wp_pure, wp_pure, Kernel.view_eq (rows_update hp) hv (hu₂.trans hu₁)]
        rw [State.setRow, if_pos (by rw [hneg] at hr; exact not_not.1 hr)] at hstep
        exact hstep
  · next hnone =>
    have hdead : ∀ q, ¬k.rows.Dead p q := fun q hc =>
      List.find?_eq_none.1 hnone q (List.mem_finRange q) (decide_eq_true hc)
    split_ifs with hall
    · rw [wp_pure]
      refine .waitNone p addr fun q hc => ?_
      have := List.all_eq_true.1 hall q (List.mem_finRange q)
      simp only [decide_eq_true_eq] at this
      exact this hc
    · rw [wp_bind, wp_modifyProc, wp_pure, Kernel.view_setProc ⟨fun _ => hl, fun _ => .inr (.inr rfl)⟩
        rfl rfl]
      obtain ⟨q, hc⟩ : ∃ q, k.rows.Child p q := by
        by_contra hno
        refine hall (List.all_eq_true.2 fun q _ => ?_)
        simp only [decide_eq_true_eq]
        exact fun hc => hno ⟨q, hc⟩
      exact .waitSleep p addr q hc hdead

end Wl00.Vm
