import Wl00.Space.World

/-!
# `fork`

* `forkFinish_spec` — the child gets the trapframe of its parent, but for `a0`.
* `fork_spec` — `fork` makes a child that is a copy of its parent, or leaves no trace.
-/

namespace Wl00.Vm

open Prog
open Sched (Slot ProcState Chan NPROC succPid)

variable {L : Layout} {k k' : Kernel L} {s s' : Mem L} {p np : Slot} {kpt : Space}
  {A : Slot → Assets}

/-! ## The trapframe -/

/-- The bytes of a trapframe that `fork` copies: all but `k_sp` and `regs[10]`. -/
def forkKeeps (o : Nat) : Prop := 4 ≤ o ∧ o < sizeofTrapframe ∧ ¬(regOff 10 ≤ o ∧ o < regOff 10 + 4)

/-- The child's trapframe in page `t` is its parent's in page `tp`, but for `a0`. -/
structure TrapframeCopy (m m' : Bytes) (tp t : Nat) : Prop where
  same : ∀ o, forkKeeps o → m' (t * 4096 + o) = m (tp * 4096 + o)
  a0 : m'.word (t * 4096 + regOff 10) = 0

/-- The child in its slot `q`, when `fork` is done. -/
def Proc.born (q : Proc) (p : Slot) (pp : Proc) : Proc :=
  { q with sz := pp.sz, name := pp.name, parent := some p, state := .ready }

theorem forkFinish_spec {tp t : Nat} (htp : (k.procs p).tf = tp * 4096)
    (ht : (k.procs np).tf = t * 4096) (hf : ¬k.mem.free t) :
    wp (forkFinish p np) (fun r k' => r = (k.procs np).pid ∧ k'.currPid = k.currPid ∧
      k'.kptable = k.kptable ∧
      k'.procs = Function.update k.procs np ((k.procs np).born p (k.procs p)) ∧
      Frame k.mem k'.mem {t} {t} ∧ TrapframeCopy k.mem.bytes k'.mem.bytes tp t) k := by
  unfold forkFinish
  simp only [wp_bind, wp_getProc, wp_modifyProc, wp_onMem, wp_load, wp_memmove, wp_store, wp_pure,
    Kernel.setProc, Function.update_self, Function.update_idem]
  refine ⟨trivial, trivial, trivial, rfl, ?_, ?_⟩
  · rw [htp, ht]
    have h₁ : Frame k.mem (k.mem.mapBytes (move · (t * 4096) (tp * 4096) sizeofTrapframe)) {t} {t} :=
      frame_mapBytes hf fun x hx => by
        rw [move_apply, if_neg (by simp only [sizeofTrapframe]; omega)]
    have h₂ := frame_store (w := k.mem.bytes.word (t * 4096 + kSpOff)) (j := kSpOff)
      (h₁.held' t rfl) (by decide)
    have h₃ := frame_store (w := 0) (j := regOff 10) (h₂.held' t rfl) (by decide)
    exact h₁.trans (h₂.trans h₃)
  · rw [htp, ht]
    refine ⟨fun o ho => ?_, Bytes.word_storeWord (by decide)⟩
    obtain ⟨h1, h2, h3⟩ := ho
    simp only [regOff, sizeofTrapframe, kSpOff] at h2 h3 ⊢
    simp only [Mem.bytes_mapBytes]
    rw [Bytes.storeWord_of_ne (by omega), Bytes.storeWord_of_ne (by omega), move_apply,
      if_pos (by omega), Nat.add_sub_cancel_left]

/-! ## `fork` -/

/-- `fork` of the process in slot `p`, whose space is `sp` and whose trapframe is in page
`tp`, has made a child in slot `np`: its trapframe is in page `t`, its stack in page `ks`, and its
space is `sp'`. -/
structure Forked (k k' : Kernel L) (p np : Slot) (tp : Nat) (sp : Space) (t ks : Nat)
    (sp' : Space) : Prop where
  unused : (k.procs np).state = .unused
  currPid : k'.currPid = succPid k.currPid
  kptable : k'.kptable = k.kptable
  procs : k'.procs = Function.update k.procs np
    (((k.procs np).filled L k.currPid (t * 4096) (ks * 4096) (sp'.root * 4096)).born p (k.procs p))
  mem : SlotMem L k'.mem.bytes (k'.procs np) ⟨some t, some ks, some (sp', userDom (k.procs p).sz)⟩
  frame : Frame k.mem k'.mem ∅ (Assets.pages ⟨some t, some ks, some (sp', userDom (k.procs p).sz)⟩)
  copies : Copies k.mem k'.mem sp sp' (userDom (k.procs p).sz)
  trapframe : TrapframeCopy k.mem.bytes k'.mem.bytes tp t

/-- `fork` has failed: only `curr_pid` may have changed. -/
structure NotForked (k k' : Kernel L) : Prop where
  currPid : k'.currPid = k.currPid ∨ k'.currPid = succPid k.currPid
  kptable : k'.kptable = k.kptable
  procs : k'.procs = k.procs
  frame : Frame k.mem k'.mem ∅ ∅

/-- Slot `np` has been filled for a child of the process in slot `p`, and `uvmcopy` has given
the child the pages `D`. -/
structure Begun (k k' : Kernel L) (p np : Slot) (t ks : Nat) (sp' : Space) (D : Set Nat) : Prop where
  unused : (k.procs np).state = .unused
  currPid : k'.currPid = succPid k.currPid
  kptable : k'.kptable = k.kptable
  procs : k'.procs = Function.update k.procs np
    ((k.procs np).filled L k.currPid (t * 4096) (ks * 4096) (sp'.root * 4096))
  mem : SlotMem L k'.mem.bytes { k'.procs np with sz := (k.procs p).sz }
    ⟨some t, some ks, some (sp', D)⟩
  frame : Frame k.mem k'.mem ∅ (Assets.pages ⟨some t, some ks, some (sp', D)⟩)

namespace Begun

variable {tp t ks : Nat} {sp sp' : Space} {D : Set Nat}

/-- `uvmcopy` has failed. -/
theorem abandon (hb : Begun k k' p np t ks sp' D) (hr : (k.procs np).reset = k.procs np) :
    wp (do
      modifyProc np fun q => { q with sz := (k.procs p).sz }
      releaseproc np
      pure (-1 : Int)) (fun r k₂ => r = -1 ∧ NotForked k k₂) k' := by
  rw [wp_bind, wp_modifyProc, wp_bind]
  have hm : SlotMem L k'.mem.bytes
      ((k'.setProc np fun q => { q with sz := (k.procs p).sz }).procs np)
      ⟨some t, some ks, some (sp', D)⟩ := by
    rw [Kernel.setProc_self]
    exact hb.mem
  refine (releaseproc_spec (k := k'.setProc np _) hm hb.frame.held').mono fun _ k₂ hk => ?_
  obtain ⟨hf, hk⟩ := hk
  simp only [Kernel.setProc, Function.update_self, Function.update_idem] at hk
  rw [wp_pure, hk]
  refine ⟨rfl, .inr hb.currPid, hb.kptable, ?_, hb.frame.trans hf⟩
  rw [hb.procs, Function.update_idem]
  refine (congrArg (Function.update k.procs np) ?_).trans (Function.update_eq_self np _)
  rw [Function.update_self]
  exact hr

/-- `uvmcopy` has copied all pages. -/
theorem finish (hb : Begun k k' p np t ks sp' (userDom (k.procs p).sz)) (hne : p ≠ np)
    (htp : (k.procs p).tf = tp * 4096) (hheld : ¬k.mem.free tp)
    (hcopies : Copies k.mem k'.mem sp sp' (userDom (k.procs p).sz)) :
    wp (forkFinish p np) (fun r k₂ => r = k.currPid ∧ Forked k k₂ p np tp sp t ks sp') k' := by
  have hp : k'.procs p = k.procs p := by rw [hb.procs, Function.update_of_ne hne]
  have hq : k'.procs np =
      (k.procs np).filled L k.currPid (t * 4096) (ks * 4096) (sp'.root * 4096) := by
    rw [hb.procs, Function.update_self]
  have htm : t ∈ Assets.pages ⟨some t, some ks, some (sp', userDom (k.procs p).sz)⟩ :=
    .inl (.inl rfl)
  refine (forkFinish_spec (by rw [hp, htp]) (by rw [hq]; rfl) (hb.frame.held' t htm)).mono
    fun r k₂ hk => ?_
  obtain ⟨rfl, hc₂, hkp₂, hp₂, hf₂, htf₂⟩ := hk
  have hf₂' := hf₂.widen_self hb.frame.held' (Set.singleton_subset_iff.2 htm)
  -- nothing in the child's space is in the page of its trapframe
  have hsame : ∀ q ∈ spaceSet (some (sp', userDom (k.procs p).sz)),
      SamePage k'.mem.bytes k₂.mem.bytes q := fun q hq =>
    hf₂.same q (hb.frame.held' q (.inl (.inr hq))) (hb.mem.apart.tf_space q hq)
  have hm := hb.mem.congr fun q hq => hsame q (tableSet_subset _ hq)
  rw [hp] at hp₂
  refine ⟨by rw [hq]; rfl, hb.unused, hc₂.trans hb.currPid, hkp₂.trans hb.kptable, ?_, ?_,
    hb.frame.trans hf₂', ?_, ?_, htf₂.a0⟩
  · rw [hp₂, hq, hb.procs, Function.update_idem]
  · rw [hp₂, Function.update_self]
    exact ⟨hm.tf_eq, hm.kstack_eq, hm.pt_eq, hm.tf_range, hm.kstack_range, hm.space, hm.apart⟩
  · exact hcopies.congr (fun _ _ _ _ => rfl) fun v hv => hsame _ (.inr ⟨v, hv, rfl⟩)
  · intro o ho
    have ho' : o < 4096 := by
      have := ho.2.1
      simp only [sizeofTrapframe] at this
      omega
    rw [htf₂.same o ho, hb.frame.same tp hheld id o ho']

end Begun

/-- **`fork` makes a copy of the process, or leaves no trace.** -/
theorem fork_spec (h : World k kpt A) (hl : (k.procs p).Live) :
    wp (fork p) (fun r k' => (r = -1 ∧ NotForked k k' ∧
        ((∀ j, (k.procs j).state ≠ .unused) ∨ Few k.mem.free (2054 + (k.procs p).sz / 4096))) ∨
      (r = k.currPid ∧ ∃ tp kp sp np t ks sp', A p = ⟨some tp, some kp, some (sp, userDom (k.procs p).sz)⟩ ∧
        Forked k k' p np tp sp t ks sp')) k := by
  obtain ⟨tp, kp, sp, hA, hlo, htp, hpt, hok⟩ := h.space hl
  unfold fork
  rw [wp_bind]
  refine (procalloc_spec h.reset).mono fun r k₁ hk => ?_
  rcases hk with ⟨rfl, rfl, hall⟩ | ⟨np, hu, hc, hkp, ⟨rfl, hp, hf, hfew⟩ | ⟨rfl, t, ks, sp₀, hm, hk₀, -, hf, hp⟩⟩
  · dsimp only
    rw [wp_pure]
    exact .inl ⟨rfl, ⟨.inl rfl, rfl, rfl, .refl fun _ => False.elim⟩, .inl hall⟩
  · dsimp only
    rw [wp_pure]
    exact .inl ⟨rfl, ⟨.inr hc, hkp, hp, hf⟩, .inr (hfew.mono (by omega))⟩
  · have hne : p ≠ np := by
      rintro rfl
      exact hl.ne_unused hu
    have hp₁ : k₁.procs p = k.procs p := by rw [hp, Function.update_of_ne hne]
    have hq₁ : k₁.procs np =
        (k.procs np).filled L k.currPid (t * 4096) (ks * 4096) (sp₀.root * 4096) := by
      rw [hp, Function.update_self]
    dsimp only
    rw [wp_bind, wp_getProc, wp_bind, wp_getProc, wp_bind, wp_onMem, hp₁, hpt,
      show (k₁.procs np).pt = sp₀.root * 4096 by rw [hq₁]; rfl]
    -- the pages of the parent have not changed, and are none of the child's
    have hsub : sp.tables ∪ sp.frames (userDom (k.procs p).sz) ⊆ (A p).pages := by
      rw [hA, Assets.pages_some]
      exact Set.subset_union_right
    have hP : Held k.mem (A p).pages := h.held p
    have hP₁ : Held k₁.mem (A p).pages := hf.held hP fun _ _ => id
    have hPd := hf.not_mem hP fun _ _ => id
    have hok₁ := hok.congr fun q hq => hf.same q (hP q (hsub (.inl hq))) id
    have hok₀ := hm.space sp₀ ∅ rfl
    have hT₀ : sp₀.tables ⊆ Assets.pages ⟨some t, some ks, some (sp₀, ∅)⟩ := by
      rw [Assets.pages_some]
      exact fun q hq => .inr (.inl hq)
    refine (uvmcopy_spec hok₁.holds hok₁.shape (fun q hq => hP₁ q (hsub hq)) hok.aligned hlo hok.le
      hok₀.holds hk₀ (fun q hq => hf.held' q (hT₀ hq))
      fun q hq hm => hPd q (hsub hq) (hT₀ hm)).mono fun r s₂ hr => ?_
    obtain ⟨sp₁, D₁, hcopy, hD₁, hr⟩ := hr
    have hspace : SpaceOk L s₂.bytes sp₁ D₁ (k.procs p).sz :=
      ⟨hcopy.holds, hcopy.shape, hD₁, hok.aligned, hok.le⟩
    have hfr : Frame k₁.mem s₂ (spaceSet (some (sp₀, ∅))) (spaceSet (some (sp₁, D₁))) := by
      rw [spaceSet, sp₀.frames_empty, Set.union_empty]
      exact hcopy.frame
    have hroot : pageAddr (Option.map (·.1.root) (some (sp₀, (∅ : Set Nat)))) =
        pageAddr (Option.map (·.1.root) (some (sp₁, D₁))) := congrArg (· * 4096) hcopy.grows.root.symm
    obtain ⟨hm₂, hf₂⟩ := hm.respace (q := { k₁.procs np with sz := (k.procs p).sz })
      (o := some (sp₁, D₁)) hf.held' hfr rfl rfl (by rw [← hroot]; exact hm.pt_eq)
      (by rintro _ _ he; cases he; exact hspace)
    have hb : Begun k { k₁ with mem := s₂ } p np t ks sp₁ D₁ :=
      ⟨hu, hc, hkp, by rw [hcopy.grows.root]; exact hp, hm₂, hf.trans hf₂⟩
    rcases hr with ⟨rfl, rfl, hcopies⟩ | ⟨rfl, hfew⟩
    · rw [if_neg (by decide)]
      have htpm : tp ∈ (A p).pages := by
        rw [hA]
        exact .inl (.inl rfl)
      refine (hb.finish hne htp (hP tp htpm) ?_).mono fun r k' hk =>
        .inr ⟨hk.1, tp, kp, sp, np, t, ks, sp₁, hA, hk.2⟩
      exact hcopies.congr (fun v hv => hf.same _ (hP _ (hsub (.inr ⟨v, hv, rfl⟩))) id)
        fun _ _ _ _ => rfl
    · rw [if_pos (by decide)]
      refine (hb.abandon (h.reset np hu)).mono fun r k' hk => .inl ⟨hk.1, hk.2, .inr ?_⟩
      obtain ⟨G, hG, hmem⟩ := hm.pages_card (E := ∅) (Set.empty_subset _)
      exact (hfew.of_footprint hf hmem).mono (by rw [Finset.card_empty] at hG; omega)

theorem World.forked (h : World k kpt A) (hl : (k.procs p).Live) {tp t ks : Nat} {sp sp' : Space}
    (hf : Forked k k' p np tp sp t ks sp') :
    World k' kpt (Function.update A np ⟨some t, some ks, some (sp', userDom (k.procs p).sz)⟩) := by
  have hq := congrFun hf.procs np
  rw [Function.update_self] at hq
  have hsz : (k'.procs np).sz = (k.procs p).sz := by rw [hq]; rfl
  have hm := hf.mem
  rw [← hsz] at hm ⊢
  refine h.update ?_ hf.kptable (.of_live hm (.inl (by rw [hq]; rfl)) ?_) fun j hj hs => ?_
  · rw [((h.slot np).unused hf.unused).2, Assets.pages_empty, hsz]
    exact hf.frame
  · rw [hsz]
    exact ((h.slot p).live hl).1
  · rwa [hf.procs, Function.update_of_ne hj]

/-- The child enters the kernel as its parent does. -/
theorem Forked.vectors {tp t ks : Nat} {sp sp' : Space} (hf : Forked k k' p np tp sp t ks sp')
    (htp : (k.procs p).tf = tp * 4096) (hv : Vectors k p) : Vectors k' np := by
  have htf : (k'.procs np).tf = t * 4096 := by
    rw [hf.procs, Function.update_self]
    rfl
  refine hv.congr hf.kptable fun o h1 h2 => ?_
  rw [htf, htp]
  exact hf.trapframe.same o ⟨h1, by simp only [sizeofTrapframe]; omega, by simp only [regOff]; omega⟩

/-- **The world after `fork`.**  A slot that was in use is as before. -/
theorem World.fork (h : World k kpt A) (hl : (k.procs p).Live) :
    wp (Vm.fork p) (fun _ k' => (∃ A', World k' kpt A') ∧ ∀ q,
      ((k.procs q).state = .unused ∧ (k'.procs q).state ≠ .running ∧ (Vectors k p → Vectors k' q)) ∨
        Spares k k' q) k := by
  refine (fork_spec h hl).mono fun r k' hk => ?_
  rcases hk with ⟨-, hn, -⟩ | ⟨-, tp, kp, sp, np, t, ks, sp', hA, hf⟩
  · refine ⟨⟨A, h.frame hn.frame hn.kptable hn.procs p⟩, fun q => .inr ?_⟩
    refine h.spares hn.kptable (by rw [hn.procs]) fun t ht => hn.frame.same t (h.held q t ?_) id
    exact .inl (.inl (by rw [ht]; rfl))
  · refine ⟨⟨_, h.forked hl hf⟩, fun q => ?_⟩
    by_cases hq : q = np
    · subst hq
      refine .inl ⟨hf.unused, ?_, hf.vectors ?_⟩
      · rw [hf.procs, Function.update_self]
        simp [Proc.born]
      · rw [(h.slot p).mem.tf_eq, hA]
        rfl
    · refine .inr (h.spares hf.kptable (by rw [hf.procs, Function.update_of_ne hq]) fun x hx => ?_)
      exact hf.frame.same x (h.held q x (.inl (.inl (by rw [hx]; rfl)))) id

end Wl00.Vm
