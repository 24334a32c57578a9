import Wl00.Private.Exec

/-!
# The kernel gives every process a memory of its own

Every run of the kernel, with its page tables, trapframes and pages that come and go, is a run of
the machine of `Wl00.Private.Machine`, in which a process simply has registers and a memory.

* `view_step` — every operation of the kernel is a step of the machine.
* `kernel_refines` — and so every run of it is a run of the machine.
* `own_history` — a process is what it makes of itself, whatever happens around it.
-/

namespace Wl00.Vm

open Prog Private
open Sched (Slot)

variable {L : Layout} {k k' : Kernel L} {s s' : Mem L} {sp : Space} {D : Set Nat} {p i : Slot}
  {kpt : Space} {A : Slot → Assets} {progs : Programs}

/-! ## Traps and stores -/

/-- Work on the trapframe of a process. -/
theorem World.user_trapframe {t ks : Nat} {x : Process} (h : World k kpt A)
    (hA : A p = ⟨some t, some ks, some (sp, D)⟩) (hf : Frame k.mem s {t} {t})
    (hx : k.user p = some x) : ({ k with mem := s } : Kernel L).user = Function.update k.user p
      (some ⟨userRegs s.bytes (t * 4096), s.bytes.word (t * 4096 + epcOff), x.mem⟩) := by
  have hm := (h.slot p).mem
  have hh := h.held p
  have hsub : {t} ⊆ (A p).pages := by
    rw [hA]
    exact fun y hy => .inl (.inl hy)
  have hl : (k.procs p).Live := by
    by_contra hc
    rw [Kernel.user_of_not_live hc] at hx
    cases hx
  rw [Kernel.user_of_live hl] at hx
  cases hx
  funext j
  by_cases hj : j = p
  · subst hj
    rw [hA] at hm hh
    have hapart : ∀ y ∈ sp.tables ∪ sp.frames D, SamePage k.mem.bytes s.bytes y := fun y hy =>
      hf.same y (hh y (.inl (.inr hy))) (hm.apart.tf_space y hy)
    have hok := hm.space sp D rfl
    have hok' := hok.congr fun y hy => hapart y (.inl hy)
    have hmem : userMemory s.bytes (sp.root * 4096) = userMemory k.mem.bytes (sp.root * 4096) :=
      (hok.holds.sameUser hok'.holds hok.shape fun v hv =>
        hapart _ (.inr ⟨v, hv, rfl⟩)).userMemory_eq
    rw [Function.update_self, Kernel.user_of_live (k := { k with mem := s }) hl, userProcess,
      userProcess, show (k.procs j).tf = t * 4096 from hm.tf_eq,
      show (k.procs j).pt = sp.root * 4096 from hm.pt_eq, hmem]
  · rw [Function.update_of_ne hj]
    have hother : ({ k with mem := s } : Kernel L).user j = k.user j :=
      h.user_other (hf.widen_self hh hsub) hj rfl
    exact hother

theorem saveRegs_words (t : Nat) (regs : Nat → Nat) {n : Nat} (hn : n ≤ 31) :
    wp (saveRegs (t * 4096) regs n) (fun _ s' =>
      (∀ i, 1 ≤ i → i ≤ n → s'.bytes.word (t * 4096 + regOff i) = regs i % 2 ^ 32) ∧
      s'.bytes.word (t * 4096 + epcOff) = s.bytes.word (t * 4096 + epcOff)) s := by
  induction n with
  | zero =>
      rw [saveRegs, wp_pure]
      exact ⟨fun i h1 h2 => by omega, rfl⟩
  | succ n ih =>
      rw [saveRegs, wp_bind]
      refine (ih (by omega)).mono fun _ s₁ hs => ?_
      rw [wp_store, Mem.bytes_mapBytes]
      refine ⟨fun i h1 h2 => ?_, ?_⟩
      · by_cases hin : i = n + 1
        · subst hin
          exact Bytes.word_storeWord_mod _
        · rw [Bytes.word_storeWord_of_ne (by simp only [regOff]; omega)]
          exact hs.1 i h1 (by omega)
      · rw [Bytes.word_storeWord_of_ne (by simp only [regOff, epcOff]; omega)]
        exact hs.2

theorem step_trap {epc : Nat} {regs : Nat → Nat} (h : World k kpt A)
    (hr : (k.procs p).state = .running) (hrun : (Op.trap p epc regs).run progs k = .ok ((), k')) :
    Step progs k.view (.trap p epc regs) k'.view := by
  have hl : (k.procs p).Live := .inr (.inl hr)
  obtain ⟨t, ks, sp, hA, -, htf, -, -⟩ := h.space hl
  have ht : ¬k.mem.free t := h.held p t (by rw [hA]; exact .inl (.inl rfl))
  have hstep : Step progs k.view (.trap p epc regs) _ := .trap p epc regs _ (Kernel.user_of_live hl)
  refine wp.of_run (Q := fun _ k' => Step progs k.view (.trap p epc regs) k'.view) ?_ hrun
  rw [Op.run, wp_bind, wp_getProc, wp_bind, wp_onMem, wp_store, wp_onMem, htf]
  have hf := frame_store (w := epc) (j := epcOff) ht (by decide)
  refine ((saveRegs_spec (hf.held' t rfl) regs le_rfl).and (saveRegs_words t regs le_rfl)).mono
    fun _ s₁ hs => ?_
  obtain ⟨⟨hf₁, -⟩, hregs, hepc⟩ := hs
  have huser := h.user_trapframe hA (hf.trans hf₁) (Kernel.user_of_live hl)
  have hall : userRegs s₁.bytes (t * 4096) =
      fun i => if 1 ≤ i ∧ i ≤ 31 then regs i % 2 ^ 32 else 0 := by
    funext i
    unfold userRegs
    split_ifs with hi
    · exact hregs i hi.1 hi.2
    · rfl
  rw [hall, hepc, Mem.bytes_mapBytes, Bytes.word_storeWord_mod] at huser
  rw [Kernel.view_eq rfl rfl huser]
  exact hstep

/-- **A store of user code is a store in its memory.** -/
theorem World.poke_user {x : Process} (h : World k kpt A) (hl : (k.procs p).Live)
    (hx : k.user p = some x) (va : UInt32) (b : UInt8) :
    wp (Vm.poke (k.procs p).pt va.toNat b) (fun _ s => ({ k with mem := s } : Kernel L).user =
      Function.update k.user p (some (x.stored va.toNat [b]))) k.mem := by
  obtain ⟨t, ks, sp, hA, -, -, hpt, hok⟩ := h.space hl
  have hva : va.toNat < 2 ^ 32 := va.toNat_lt
  have hheld : Held k.mem (sp.tables ∪ sp.frames (userDom (k.procs p).sz)) := by
    intro y hy
    refine h.held p y ?_
    rw [hA]
    exact .inl (.inr hy)
  have hxm : x.mem = userMemory k.mem.bytes (sp.root * 4096) := by
    rw [Kernel.user_of_live hl] at hx
    cases hx
    rw [userProcess, hpt]
  -- the byte has been stored, or nothing has happened
  have hdone : ∀ (s₁ : Mem L) (j : Nat),
      Frame k.mem s₁ (sp.frames (userDom (k.procs p).sz)) (sp.frames (userDom (k.procs p).sz)) →
      Reach k.mem.bytes (sp.root * 4096) PTE_W va.toNat [b].length j →
      Written k.mem s₁ (sp.root * 4096) va.toNat [b] j →
      ({ k with mem := s₁ } : Kernel L).user =
        Function.update k.user p (some (x.stored va.toNat [b])) := by
    intro s₁ j hf hreach hw
    refine h.user_touch hA hf hx ?_
    rw [hpt, hxm]
    exact userMemory_written hok.holds hok.shape
      (hok.holds.frame_user hok.shape.owns hheld hf).1 hreach hw (by simp)
  have hzero : ∀ i < 1, (va.toNat + i) % 2 ^ 32 = va.toNat := by
    intro i hi
    omega
  unfold Vm.poke
  rw [wp_bind, wp_findUserPa, hpt]
  by_cases hacc : Access k.mem.bytes (sp.root * 4096) PTE_W va.toNat
  · have hD := hok.shape.mem_of_access hok.holds hva hacc
    have hphys : physical k.mem.bytes (sp.root * 4096) va.toNat =
        sp.page (va.toNat / 4096) * 4096 + va.toNat % 4096 := by
      rw [physical, hok.holds.entryAt_eq hva, hok.shape.owns.pte2pa hD]
    rw [if_pos hacc, if_neg (hacc.ne_zero (hok.holds.scattered hok.shape).pool hva), wp_memmoveFrom]
    refine hdone _ 1 ?_ ⟨le_rfl, fun i hi => ?_, fun hc => absurd hc (by simp)⟩
      ⟨rfl, fun i hi => ?_, fun y hy => ?_⟩
    · rw [hphys]
      exact frame_write (fun y hy => hheld y (.inr hy)) hD
        (by simp only [List.length_cons, List.length_nil]; omega)
    · rwa [hzero i hi]
    · obtain rfl : i = 0 := by omega
      rw [hzero 0 hi, Mem.bytes_mapBytes, Bytes.write_apply]
      simp
    · have hne := hy 0 (by decide)
      rw [hzero 0 (by decide)] at hne
      rw [Mem.bytes_mapBytes, Bytes.write_apply, if_neg]
      simp only [List.length_cons, List.length_nil]
      omega
  · rw [if_neg hacc, if_pos rfl, wp_pure]
    refine hdone k.mem 0 (.refl fun y hy => hheld y (.inr hy))
      ⟨Nat.zero_le _, fun i hi => absurd hi (Nat.not_lt_zero i), fun _ => ?_⟩
      ⟨rfl, fun i hi => absurd hi (Nat.not_lt_zero i), fun _ _ => rfl⟩
    rwa [hzero 0 (by decide)]

/-! ## Every operation -/

theorem enabled_view {op : Op} (h : op.enabled k) : Enabled k.view.rows op := by
  cases op <;> exact h

/-- The result of a call is dropped. -/
theorem run_of_drop {α : Type} {m : KernelM L α}
    (h : (m >>= fun _ => pure ()) k = .ok ((), k')) : ∃ a, m k = .ok (a, k') := by
  have h' : (m k >>= fun r => Except.ok ((), r.2)) = .ok ((), k') := h
  cases hm : m k with
  | error e =>
      rw [hm] at h'
      cases h'
  | ok r =>
      rw [hm] at h'
      cases h'
      exact ⟨r.1, rfl⟩

/-- **Every operation of the kernel is a step of the machine.** -/
theorem view_step {op : Op} (h : World k kpt A) (hop : op.enabled k)
    (hrun : op.run progs k = .ok ((), k')) : Step progs k.view op k'.view := by
  cases op with
  | procalloc =>
      obtain ⟨r, hr⟩ := run_of_drop hrun
      exact step_procalloc h hr
  | fork p =>
      obtain ⟨r, hr⟩ := run_of_drop hrun
      exact step_fork h hop hr
  | exec p =>
      obtain ⟨r, hr⟩ := run_of_drop hrun
      exact step_sysExec h hop hr
  | exit p status => exact step_kexit h hop hrun
  | wait p addr =>
      obtain ⟨r, hr⟩ := run_of_drop hrun
      exact step_wait h hop hr
  | reap q =>
      obtain ⟨hu, hv, hp⟩ := (h.user_releaseproc hop.1).of_run hrun
      rw [Kernel.view_eq (rows_update hp) hv hu]
      exact .reap q
  | dispatch p =>
      cases hrun
      have hl : (k.procs p).Live := .inl hop
      rw [Kernel.view_setProc ⟨fun _ => hl, fun _ => .inr (.inl rfl)⟩ rfl rfl]
      exact .dispatch p
  | yield p =>
      cases hrun
      have hl : (k.procs p).Live := .inr (.inl hop)
      rw [Kernel.view_setProc ⟨fun _ => hl, fun _ => .inl rfl⟩ rfl rfl]
      exact .yield p
  | sleep p =>
      cases hrun
      have hl : (k.procs p).Live := .inr (.inl hop)
      rw [Kernel.view_setProc ⟨fun _ => hl, fun _ => .inr (.inr rfl)⟩ rfl rfl]
      exact .sleep p
  | tick =>
      have hrows := (wakeup_ends (k := k) ⟨rfl, rfl⟩ (some .ticks)).of_run hrun
      have hu := (wakeup_user k (some .ticks)).of_run hrun
      rw [Kernel.view_eq hrows.1 hrows.2 hu]
      exact .tick
  | trap p epc regs => exact step_trap h hop hrun
  | poke p va b =>
      have hl : (k.procs p).Live := .inr (.inl hop)
      have hwp : wp ((Op.poke p va b).run progs) (fun _ k' => k'.view = k.view.setProcess p
          (some ((userProcess k.mem.bytes (k.procs p)).stored va.toNat [b]))) k := by
        rw [Op.run, wp_bind, wp_getProc, wp_onMem]
        exact (h.poke_user hl (Kernel.user_of_live hl) va b).mono fun _ s hs =>
          Kernel.view_eq rfl rfl hs
      rw [hwp.of_run hrun]
      exact .poke p va b _ (Kernel.user_of_live hl)

/-! ## Every run -/

theorem machine_step {op : Op} (hr : (system L progs).Reachable k)
    (hs : (system L progs).step k op k') : (machine progs).step k.view op k'.view := by
  obtain ⟨kpt, A, hw⟩ := world_reachable hr
  exact ⟨enabled_view hs.1, view_step hw hs.1 hs.2⟩

theorem run_fork {r : Int} (h : fork p k = .ok (r, k')) : (Op.fork p).run progs k = .ok ((), k') := by
  simp only [Op.run, bind, StateT.bind, h]
  rfl

/-- **The kernel refines the machine.**  Whatever the kernel does, operation by operation, the
machine of processes with memories of their own can do, and the kernel's tables, trapframes and
pages hold just its processes. -/
theorem kernel_refines {tr : List Op} (h : (system L progs).Run tr k) :
    (machine progs).Run tr k.view := by
  apply h.map
  · rintro k₀ ⟨bytes, hb⟩
    exact boot_view hb
  · intro k₁ op k₂ hr hs
    exact machine_step hr hs

/-- The first process of the small machine forks, and the machine has two processes then. -/
theorem kernel_refines_tiny : ∃ (k : Kernel tinyLayout) (tr : List Op) (p np : Slot) (x : Process),
    (system tinyLayout tinyPrograms).Run (.fork p :: tr) k ∧
      (machine tinyPrograms).Run (.fork p :: tr) k.view ∧ np ≠ p ∧
      k.view.procs p = some x ∧ k.view.procs np = some x.child := by
  obtain ⟨k, p, hr, hp, hsz, halone⟩ := tiny_runs
  obtain ⟨np, k', hf, hne, hn, -⟩ := fork_alone hr hp hsz halone
  have hs : (system tinyLayout tinyPrograms).step k (.fork p) k' := ⟨hp, run_fork hf⟩
  have hstep := (machine_step hr hs).2
  obtain ⟨tr, hrun⟩ := hr
  have hrun' := hrun.next hs
  have hx := Kernel.user_of_live (k := k) (.inr (.inl hp) : (k.procs p).Live)
  obtain ⟨hpp, hnp⟩ := hstep.forked (halone np hne) hn hne hx
  exact ⟨k', tr, p, np, _, hrun', kernel_refines hrun', hne, hpp, hnp⟩

/-- The runs that go on from `k`. -/
def since (progs : Programs) (k : Kernel L) : Lts (Kernel L) Op :=
  { system L progs with init := (· = k) }

theorem since_reachable (hr : (system L progs).Reachable k)
    (h : (since progs k).Reachable k') : (system L progs).Reachable k' := by
  refine h.invariant (I := (system L progs).Reachable) ?_ ?_
  · rintro _ rfl
    exact hr
  · intro k₁ op k₂ _ hr hs
    exact hr.next hs

/-- One operation, as a process sees it. -/
theorem own_step {op : Op} {x : Process} (hr : (system L progs).Reachable k)
    (hs : (system L progs).step k op k') (hexit : ∀ status, op ≠ .exit p status)
    (hx : k.user p = some x) : (¬Own p op ∧ k'.user p = some x) ∨
      (Own p op ∧ ∃ a : Act, a.op p = op ∧ k'.user p = some (x.act progs a)) := by
  have hstep := (machine_step hr hs).2
  by_cases ho : Own p op
  · exact .inr ⟨ho, hstep.own ho hexit hx⟩
  · refine .inl ⟨ho, (hstep.other ho (fun _ hu => ?_) ?_).trans hx⟩
    · -- a slot that is not used has no process
      have hl : ¬(k.procs p).Live := fun hl => hl.ne_unused hu
      rw [Kernel.user_of_not_live hl] at hx
      cases hx
    · exact Option.isSome_iff_exists.2 ⟨x, hx⟩

/-- **A process is what it makes of itself.**  Whatever the other processes, the schedulers and
the clock do in between, its registers, its pc and its memory come from what they were by its own
acts and the answers to them, one after another. -/
theorem own_history {ops : List Op} {x : Process} (hr : (system L progs).Reachable k)
    (hx : k.user p = some x) (h : (since progs k).Run ops k')
    (hexit : ∀ status, Op.exit p status ∉ ops) :
    ∃ as : List Act, as.map (Act.op p) = ops.filter (Own p ·) ∧
      k'.user p = some (as.foldr (fun a y => y.act progs a) x) := by
  induction h with
  | start hi =>
      cases hi
      exact ⟨[], rfl, hx⟩
  | next hrun hs ih =>
      rename_i ops k₁ k₂ op
      obtain ⟨as, hmap, hy⟩ := ih fun status hm => hexit status (List.mem_cons_of_mem _ hm)
      have hne : ∀ status, op ≠ .exit p status := by
        rintro status rfl
        exact hexit status List.mem_cons_self
      rcases own_step (since_reachable hr ⟨ops, hrun⟩) hs hne hy with ⟨ho, hu⟩ | ⟨ho, a, ha, hu⟩
      · refine ⟨as, ?_, hu⟩
        rw [List.filter_cons_of_neg (by simpa using ho), hmap]
      · refine ⟨a :: as, ?_, hu⟩
        rw [List.filter_cons_of_pos (by simpa using ho), List.map_cons, ha, hmap]

/-- An operation that may happen next happens. -/
theorem system_next (op : Op) (hr : (system L progs).Reachable k) (hop : op.enabled k) :
    ∃ k', (system L progs).step k op k' ∧ Step progs k.view op k'.view := by
  obtain ⟨kpt, A, hw⟩ := world_reachable hr
  have hspec : wp (op.run progs) _ k := world_step hw hop
  obtain ⟨_, k', hrun, -⟩ := wp_iff.1 hspec
  exact ⟨k', ⟨hop, hrun⟩, (machine_step hr ⟨hop, hrun⟩).2⟩

/-- The first process of the small machine forks; its child is dispatched on another hart, traps
and calls `exec`; and the first process traps. -/
theorem own_history_trap : ∃ (k k' : Kernel tinyLayout) (p np : Slot) (x : Process),
    (system tinyLayout tinyPrograms).Reachable k ∧ k.user p = some x ∧ np ≠ p ∧
      (since tinyPrograms k).Run [.tick, .trap p 4096 fun i => i, .exec np,
        .trap np 0 fun _ => 0, .dispatch np, .fork p] k' ∧
      k'.user p = some (x.resume 4096 fun i => i) := by
  obtain ⟨k, p, hr, hp, hsz, halone⟩ := tiny_runs
  obtain ⟨np, k₁, hf, hne, hn₁, hpp⟩ := fork_alone hr hp hsz halone
  have hx := Kernel.user_of_live (k := k) (.inr (.inl hp) : (k.procs p).Live)
  -- the six operations, one after another
  have hs₁ : (system tinyLayout tinyPrograms).step k (.fork p) k₁ := ⟨hp, run_fork hf⟩
  have hr₁ := hr.next hs₁
  have hp₁ : (k₁.procs p).state = .running := by rw [hpp, hp]
  obtain ⟨k₂, hs₂, hv₂⟩ := system_next (.dispatch np) hr₁ hn₁
  have hr₂ := hr₁.next hs₂
  have hn₂ : (k₂.procs np).state = .running := hv₂.dispatched.1
  have hp₂ : (k₂.procs p).state = .running := (hv₂.dispatched.2 p hne.symm).trans hp₁
  obtain ⟨k₃, hs₃, hv₃⟩ := system_next (.trap np 0 fun _ => 0) hr₂ hn₂
  have hr₃ := hr₂.next hs₃
  have hst₃ : ∀ q, (k₃.procs q).state = (k₂.procs q).state := hv₃.trap_state
  obtain ⟨k₄, hs₄, hv₄⟩ := system_next (.exec np) hr₃ ((hst₃ np).trans hn₂)
  have hr₄ := hr₃.next hs₄
  have hst₄ : ∀ q, (k₄.procs q).state = (k₃.procs q).state := hv₄.exec_state
  have hp₄ : (k₄.procs p).state = .running := (hst₄ p).trans ((hst₃ p).trans hp₂)
  obtain ⟨k₅, hs₅, -⟩ := system_next (.trap p 4096 fun i => i) hr₄ hp₄
  obtain ⟨k₆, hs₆, -⟩ := system_next .tick (hr₄.next hs₅) trivial
  have hstart : (since tinyPrograms k).Run [] k := .start rfl
  have hrun : (since tinyPrograms k).Run [.tick, .trap p 4096 fun i => i, .exec np,
      .trap np 0 fun _ => 0, .dispatch np, .fork p] k₆ :=
    (((((hstart.next hs₁).next hs₂).next hs₃).next hs₄).next hs₅).next hs₆
  obtain ⟨as, hmap, hu⟩ := own_history hr hx hrun (by simp)
  refine ⟨k, k₆, p, np, _, hr, hx, hne, hrun, ?_⟩
  -- one of them is its own
  have hown : ([.tick, .trap p 4096 fun i => i, .exec np, .trap np 0 fun _ => 0, .dispatch np,
      .fork p] : List Op).filter (Own p ·) = [.trap p 4096 fun i => i] := by
    have hself : Own p (.trap p 4096 fun i => i) := rfl
    have hexec : ¬Own p (.exec np) := hne
    have htrap : ¬Own p (.trap np 0 fun _ => 0) := hne
    have hothers : ¬Own p .tick ∧ ¬Own p (.dispatch np) ∧ ¬Own p (.fork p) := ⟨id, id, id⟩
    simp [hself, hexec, htrap, hothers]
  rw [hown] at hmap
  obtain ⟨a, l, rfl, ha, hl⟩ := List.map_eq_cons_iff.1 hmap
  obtain rfl := List.map_eq_nil_iff.1 hl
  cases a with
  | trap epc regs =>
      cases ha
      exact hu
  | exec done => cases ha
  | wait addr status => cases ha
  | poke va b => cases ha

end Wl00.Vm
