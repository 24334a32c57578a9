import Wl00.Space.Bytewise
import Wl00.Space.World

/-!
# `kexit` and `wait`

The slots that these functions empty, and the world afterwards.  While `kexit` runs,
its own process is neither alive any more nor a zombie yet; the invariant is kept for
the kernel in which it is one already.

* `World.releaseproc` — a slot is emptied.
* `World.kexit`, `World.wait` — the world after them, in which every other process runs as
  before and has its trapframe.
-/

namespace Wl00.Vm

open Prog
open Sched (Slot ProcState Chan NPROC succPid)

variable {L : Layout} {k k' : Kernel L} {s s' : Mem L} {p q : Slot} {kpt : Space}
  {A : Slot → Assets}

/-! ## Steps of one slot -/

/-- **A slot is emptied**, whatever it holds. -/
theorem World.releaseproc (h : World k kpt A) (q : Slot) : wp (Vm.releaseproc q) (fun _ k' =>
    k'.procs = Function.update k.procs q (k.procs q).reset ∧
      World k' kpt (Function.update A q .empty) ∧ ∀ j, j ≠ q → Spares k k' j) k := by
  refine (releaseproc_spec (h.slot q).mem (h.held q)).mono fun _ k' hk => ?_
  obtain ⟨hf, hk⟩ := hk
  have hp : k'.procs = Function.update k.procs q (k.procs q).reset := by rw [hk]
  refine ⟨hp, h.update ?_ (by rw [hk]) ?_ fun j hj hs => ?_, fun j hj => ?_⟩
  · rwa [Assets.pages_empty]
  · rw [hp, Function.update_self]
    exact .of_reset _ _
  · rwa [hp, Function.update_of_ne hj]
  · exact h.spares_other hf hj (by rw [hk]) (by rw [hp, Function.update_of_ne hj])

/-- Nobody runs in a slot that has been emptied, and nobody did so before. -/
theorem spares_reset (hp : k'.procs q = (k.procs q).reset) (hr : (k.procs q).state ≠ .running) :
    Spares k k' q := by
  have hs : (k'.procs q).state = .unused := by
    rw [hp]
    rfl
  have hl : ¬(k'.procs q).Live := fun hl => hl.ne_unused hs
  refine ⟨⟨fun h => absurd h hl, fun _ h => absurd h hl, fun _ h => absurd h hl⟩, ⟨fun h => ?_, fun h => absurd h hr⟩⟩
  rw [hs] at h
  cases h

/-- A field of one slot has changed that does not matter. -/
theorem World.setProc (h : World k kpt A) {f : Proc → Proc}
    (hf : SlotOk L k.mem.bytes (k.procs q) (A q) → SlotOk L k.mem.bytes (f (k.procs q)) (A q)) :
    World (k.setProc q f) kpt A := by
  refine h.fields rfl rfl fun j hj => ?_
  by_cases hjq : j = q
  · subst hjq
    rw [Kernel.setProc_self]
    exact hf hj
  · rwa [Kernel.setProc_ne hjq]

theorem SlotOk.wake {m : Bytes} {x : Proc} {B : Assets} (h : SlotOk L m x B) (c : Option Chan) :
    SlotOk L m (x.wake c) B := by
  unfold Proc.wake
  split_ifs with hc
  · exact h.fields (by rw [hc.2]; decide) (.inr ⟨.inr (.inr hc.2), .inl rfl⟩) rfl rfl rfl rfl
  · exact h

/-- To be woken up is no change. -/
theorem spares_wake (c : Option Chan) (hm : k'.mem = k.mem) (hk : k'.kptable = k.kptable)
    (hp : k'.procs q = (k.procs q).wake c) : Spares k k' q := by
  unfold Proc.wake at hp
  split_ifs at hp with hc
  · refine ⟨keeps_fields hm hk (fun _ => .inr (.inr hc.2)) (by rw [hp]) (by rw [hp]), ?_⟩
    rw [hp, hc.2]
    simp
  · exact spares_fields hm hk hp

theorem World.wakeup (h : World k kpt A) (c : Option Chan) :
    wp (Vm.wakeup c) (fun _ k' => World k' kpt A ∧ ∀ q, Spares k k' q) k := by
  rw [Vm.wakeup, wp_modify]
  exact ⟨h.fields rfl rfl fun j hj => hj.wake c, fun q => spares_wake c rfl rfl rfl⟩

/-! ## `kexit` -/

/-- The kernel in which the process in slot `p` is a zombie. -/
def Kernel.dying (k : Kernel L) (p : Slot) : Kernel L := k.setProc p fun q => { q with state := .zombie }

/-- A slot with a parent is in use. -/
theorem SlotOk.ne_unused {m : Bytes} {x : Proc} {B : Assets} (h : SlotOk L m x B)
    (hp : x.parent ≠ none) : x.state ≠ .unused := by
  intro hu
  apply hp
  rw [← (h.unused hu).1]
  rfl

/-- What `kexit` of the process in slot `p` keeps. -/
structure Exiting (k : Kernel L) (p : Slot) (kpt : Space) (A : Slot → Assets) : Prop where
  world : World (k.dying p) kpt A
  running : (k.procs p).state = .running

/-- A field of a slot has changed that does not matter. -/
theorem spares_setProc {i : Slot} {f : Proc → Proc}
    (hs : ∀ x, (f x).state = x.state ∧ (f x).tf = x.tf ∧ (f x).kstack = x.kstack) :
    Spares k (k.setProc i f) q := by
  have hq : ((k.setProc i f).procs q).state = (k.procs q).state ∧
      ((k.setProc i f).procs q).tf = (k.procs q).tf ∧
      ((k.setProc i f).procs q).kstack = (k.procs q).kstack := by
    by_cases hi : q = i
    · subst hi
      rw [Kernel.setProc_self]
      exact hs _
    · rw [Kernel.setProc_ne hi]
      exact ⟨rfl, rfl, rfl⟩
  refine ⟨keeps_fields rfl rfl (fun hl => ?_) hq.2.1 hq.2.2, by rw [hq.1]⟩
  unfold Proc.Live at hl ⊢
  rwa [hq.1] at hl

/-- Fields of slots have changed that do not matter. -/
theorem Exiting.setProc (h : Exiting k p kpt A) {f : Proc → Proc}
    (hs : ∀ x, (f x).state = x.state ∧ (f x).tf = x.tf ∧ (f x).kstack = x.kstack ∧
      (f x).pt = x.pt ∧ (f x).sz = x.sz) (hq : (k.procs q).state ≠ .unused) :
    Exiting (k.setProc q f) p kpt A := by
  obtain ⟨hst, htf, hks, hpt, hsz⟩ := hs (k.procs q)
  refine ⟨h.world.fields rfl rfl fun j hj => ?_, ?_⟩
  · by_cases hjp : j = p <;> by_cases hjq : j = q
    · subst hjp hjq
      simp only [Kernel.dying, Kernel.setProc_self] at hj ⊢
      exact hj.fields (by simp) (.inl rfl) htf hks hpt hsz
    · subst hjp
      simpa only [Kernel.dying, Kernel.setProc_self, Kernel.setProc_ne hjq] using hj
    · subst hjq
      simp only [Kernel.dying, Kernel.setProc_self, Kernel.setProc_ne hjp] at hj ⊢
      exact hj.fields hq (.inl hst) htf hks hpt hsz
    · simpa only [Kernel.dying, Kernel.setProc_ne hjp, Kernel.setProc_ne hjq] using hj
  · by_cases hpq : p = q
    · subst hpq
      rw [Kernel.setProc_self, hst, h.running]
    · rw [Kernel.setProc_ne hpq, h.running]

theorem Exiting.releaseproc (h : Exiting k p kpt A) (hq : q ≠ p) (hz : (k.procs q).state = .zombie) :
    wp (Vm.releaseproc q) (fun _ k' => Exiting k' p kpt (Function.update A q .empty) ∧
      ∀ j, j ≠ p → Spares k k' j) k := by
  have hm := (h.world.slot q).mem
  rw [Kernel.dying, Kernel.setProc_ne hq] at hm
  refine (releaseproc_spec (k := k) hm (h.world.held q)).mono fun _ k' hk => ?_
  obtain ⟨hf, hk⟩ := hk
  have hp : k'.procs = Function.update k.procs q (k.procs q).reset := by rw [hk]
  refine ⟨⟨h.world.update ?_ (by rw [hk]; rfl) ?_ fun j hj hs => ?_, ?_⟩, fun j hj => ?_⟩
  · rw [Assets.pages_empty]
    exact hf
  · rw [Kernel.dying, Kernel.setProc_ne hq, hp, Function.update_self]
    exact .of_reset _ _
  · by_cases hjp : j = p
    · subst hjp
      simpa only [Kernel.dying, Kernel.setProc_self, hp, Function.update_of_ne hj] using hs
    · simpa only [Kernel.dying, Kernel.setProc_ne hjp, hp, Function.update_of_ne hj] using hs
  · rw [hp, Function.update_of_ne (Ne.symm hq), h.running]
  · by_cases hjq : j = q
    · subst hjq
      exact spares_reset (by rw [hp, Function.update_self]) (by rw [hz]; decide)
    · -- the world is that of `k.dying p`, which has the same slot `j`
      have hs : (k.dying p).procs j = k.procs j := by rw [Kernel.dying, Kernel.setProc_ne hj]
      have hd : Spares (k.dying p) k' j :=
        h.world.spares_other hf hjq (by rw [hk]; rfl) (by rw [hp, Function.update_of_ne hjq, hs])
      have hk : Spares k (k.dying p) j := spares_fields rfl rfl hs
      exact hk.trans hd

theorem handOver_spec (h : Exiting k p kpt A) (hq : (k.procs q).parent ≠ none)
    (reaper : Option Slot) :
    wp (handOver q reaper) (fun _ k' => (∃ A', Exiting k' p kpt A') ∧
      ∀ j, j ≠ p → Spares k k' j) k := by
  have hu : (k.procs q).state ≠ .unused := by
    by_cases hqp : q = p
    · subst hqp
      rw [h.running]
      decide
    · have hs := h.world.slot q
      rw [Kernel.dying, Kernel.setProc_ne hqp] at hs
      exact hs.ne_unused hq
  have h₁ : Exiting (k.setProc q fun x => { x with parent := reaper }) p kpt A :=
    h.setProc (fun _ => ⟨rfl, rfl, rfl, rfl, rfl⟩) hu
  have hs : ∀ j, Spares k (k.setProc q fun x => { x with parent := reaper }) j :=
    fun j => spares_setProc fun _ => ⟨rfl, rfl, rfl⟩
  unfold handOver
  rw [wp_bind, wp_modifyProc, wp_bind, wp_getProc]
  split_ifs with hz hr
  · rw [wp_bind]
    have hqp : q ≠ p := by
      rintro rfl
      rw [h₁.running] at hz
      cases hz
    refine (h₁.releaseproc hqp hz).mono fun _ k' hk => ?_
    rw [wp_pure]
    exact ⟨⟨_, hk.1⟩, fun j hj => (hs j).trans (hk.2 j hj)⟩
  · rw [wp_pure]
    exact ⟨⟨A, h₁⟩, fun j _ => hs j⟩
  · rw [wp_pure]
    exact ⟨⟨A, h₁⟩, fun j _ => hs j⟩

theorem handOverAll_spec (h : Exiting k p kpt A) (reaper : Option Slot) (l : List Slot)
    (gave : Bool) :
    wp (handOverAll p reaper l gave) (fun _ k' => (∃ A', Exiting k' p kpt A') ∧
      ∀ j, j ≠ p → Spares k k' j) k := by
  induction l generalizing k A gave with
  | nil =>
      rw [handOverAll, wp_pure]
      exact ⟨⟨A, h⟩, fun j _ => .refl k j⟩
  | cons q l ih =>
      rw [handOverAll, wp_bind, wp_getProc]
      split_ifs with hq
      · rw [wp_bind]
        refine (handOver_spec h (by rw [hq]; simp) reaper).mono fun z k₁ hk => ?_
        obtain ⟨⟨A₁, h₁⟩, hs⟩ := hk
        exact (ih h₁ _).mono fun _ k' hk => ⟨hk.1, fun j hj => (hs j hj).trans (hk.2 j hj)⟩
      · exact ih h gave

theorem Exiting.wakeupIf (h : Exiting k p kpt A) (b : Bool) (c : Option Chan) :
    wp (Vm.wakeupIf b c) (fun _ k' => Exiting k' p kpt A ∧ ∀ j, Spares k k' j) k := by
  unfold Vm.wakeupIf
  split_ifs
  · rw [Vm.wakeup, wp_modify]
    refine ⟨⟨h.world.fields rfl rfl fun j hj => ?_, ?_⟩, fun j => spares_wake c rfl rfl rfl⟩
    · by_cases hjp : j = p
      · subst hjp
        simp only [Kernel.dying, Kernel.setProc_self] at hj ⊢
        rw [Proc.wake, if_neg (by rw [h.running]; simp)]
        exact hj
      · simp only [Kernel.dying, Kernel.setProc_ne hjp] at hj ⊢
        exact hj.wake c
    · dsimp only
      rw [Proc.wake, if_neg (by rw [h.running]; simp), h.running]
  · rw [wp_pure]
    exact ⟨h, fun j => .refl k j⟩

/-- The process in slot `p` gives its space back. -/
theorem World.exiting (h : World k kpt A) (hr : (k.procs p).state = .running) :
    wp (onMem (uvmfree (k.procs p).pt (k.procs p).sz)) (fun _ k' => (∃ A',
      Exiting (k'.setProc p fun pp => { pp with pt := 0 }) p kpt A') ∧
        ∀ j, j ≠ p → Spares k k' j) k := by
  obtain ⟨t, ks, sp, hA, -, -, hpt, hok⟩ := h.space (.inr (.inl hr))
  have hmem := (h.slot p).mem
  have hheld := h.held p
  rw [hA] at hmem hheld
  rw [wp_onMem, hpt]
  refine (uvmfree_spec hok.holds hok.within (fun x hx => hheld x (.inl (.inr hx))) hok.aligned
    hok.le).mono fun _ s₁ hf => ?_
  obtain ⟨hm₁, hf₁⟩ := hmem.respace (q := { k.procs p with pt := 0, state := .zombie })
    (o := none) hheld hf rfl rfl rfl fun _ _ he => by cases he
  have hf₂ : Frame k.mem s₁ (A p).pages (Assets.pages ⟨some t, some ks, none⟩) := by
    rw [hA]
    exact hf₁
  refine ⟨⟨Function.update A p ⟨some t, some ks, none⟩, h.update ?_ rfl ?_ fun j hj hs => ?_, ?_⟩,
    fun j hj => h.spares_other hf₂ hj rfl rfl⟩
  · exact hf₂
  · simp only [Kernel.dying, Kernel.setProc_self]
    exact .of_zombie hm₁ rfl
  · simpa only [Kernel.dying, Kernel.setProc_ne hj] using hs
  · rw [Kernel.setProc_self]
    exact hr

/-- **The world after `kexit`.** -/
theorem World.kexit (h : World k kpt A) (hr : (k.procs p).state = .running) (status : Int) :
    wp (Vm.kexit p status) (fun _ k' => (∃ A', World k' kpt A') ∧
      (k'.procs p).state = .zombie ∧ ∀ j, j ≠ p → Spares k k' j) k := by
  unfold Vm.kexit
  rw [wp_bind, wp_getProc, wp_bind]
  refine (h.exiting hr).mono fun _ k₁ hk => ?_
  obtain ⟨⟨A₁, h₁⟩, hs₁⟩ := hk
  rw [wp_bind, wp_modifyProc, wp_bind, wp_get, wp_bind]
  refine (handOverAll_spec h₁ _ _ _).mono fun gave k₂ hk => ?_
  obtain ⟨⟨A₂, h₂⟩, hs₂⟩ := hk
  rw [wp_bind]
  refine (h₂.wakeupIf _ _).mono fun _ k₃ hk => ?_
  obtain ⟨h₃, hs₃⟩ := hk
  rw [wp_bind, wp_getProc, wp_bind]
  refine (h₃.wakeupIf _ _).mono fun _ k₄ hk => ?_
  obtain ⟨h₄, hs₄⟩ := hk
  rw [wp_modifyProc]
  refine ⟨⟨A₂, h₄.world.fields rfl rfl fun j hj => ?_⟩, ?_, fun j hj => ?_⟩
  · by_cases hjp : j = p
    · subst hjp
      simp only [Kernel.dying, Kernel.setProc_self] at hj ⊢
      exact hj.fields (by simp) (.inl rfl) rfl rfl rfl rfl
    · simpa only [Kernel.dying, Kernel.setProc_ne hjp] using hj
  · rw [Kernel.setProc_self]
  · have h₁ : Spares k₁ (k₁.setProc p fun pp => { pp with pt := 0 }) j :=
      spares_setProc fun _ => ⟨rfl, rfl, rfl⟩
    have h₁₂ : Spares k k₂ j := ((hs₁ j hj).trans h₁).trans (hs₂ j hj)
    have h₂₄ : Spares k₂ k₄ j := (hs₃ j).trans (hs₄ j)
    exact (h₁₂.trans h₂₄).trans (spares_fields rfl rfl (by rw [Kernel.setProc_ne hj]))

/-! ## `wait` -/

/-- Work on the user pages of a live process. -/
theorem World.touch_user (h : World k kpt A) {t ks : Nat} {sp : Space} {D : Set Nat}
    (hA : A p = ⟨some t, some ks, some (sp, D)⟩)
    (hf : Frame k.mem s (sp.frames D) (sp.frames D)) :
    World { k with mem := s } kpt A ∧ ∀ q, Spares k { k with mem := s } q := by
  have hm := (h.slot p).mem
  have hB : sp.frames D ⊆ (A p).pages := by
    rw [hA]
    exact fun x hx => .inl (.inr (.inr hx))
  rw [hA] at hm
  have hok := hm.space sp D rfl
  refine ⟨h.touch (i := p) hB ?_ hf, fun q => h.spares rfl rfl fun tq htq => ?_⟩
  · rw [hA]
    rintro x hx ⟨v, hv, rfl⟩
    exact hok.shape.owns.apart v hv hx
  · have hq : tq ∈ (A q).pages := .inl (.inl (by rw [htq]; rfl))
    refine hf.same tq (h.held q tq hq) fun hx => ?_
    by_cases hqp : q = p
    · subst hqp
      rw [hA] at htq
      cases htq
      exact hm.apart.tf_space _ (.inr hx) rfl
    · exact h.apart hqp tq hq (hB hx)

theorem copyStatus_spec (h : World k kpt A) (hl : (k.procs p).Live) {addr : Nat}
    (ha : addr < 2 ^ 32) (status : Int) :
    wp (copyStatus (k.procs p).pt addr status) (fun _ s =>
      World { k with mem := s } kpt A ∧ ∀ q, Spares k { k with mem := s } q) k.mem := by
  obtain ⟨t, ks, sp, hA, -, -, hpt, hok⟩ := h.space hl
  unfold copyStatus
  split_ifs
  · rw [hpt]
    refine (copyout_spec hok.holds hok.shape ?_ ha (by simp [intBytes])).mono fun _ s hc =>
      h.touch_user hA hc.2
    intro x hx
    refine h.held p x ?_
    rw [hA]
    exact .inl (.inr hx)
  · rw [wp_pure]
    exact ⟨h, fun q => .refl k q⟩

/-- **The world after `wait`.**  The process runs on, if it does not go to sleep. -/
theorem World.wait (h : World k kpt A) (hr : (k.procs p).state = .running) (addr : UInt32) :
    wp (Vm.wait p addr.toNat) (fun r k' => (∃ A', World k' kpt A') ∧
      (r ≠ none → Spares k k' p) ∧ Keeps k k' p ∧ (k'.procs p).Live ∧
        ∀ j, j ≠ p → Spares k k' j) k := by
  have hl : (k.procs p).Live := .inr (.inl hr)
  -- what is left to show where all processes are spared
  have hall : ∀ k' : Kernel L, (∀ j, Spares k k' j) →
      Spares k k' p ∧ Keeps k k' p ∧ (k'.procs p).Live ∧ ∀ j, j ≠ p → Spares k k' j :=
    fun k' hs => ⟨hs p, (hs p).toKeeps, .inr (.inl ((hs p).running.2 hr)), fun j _ => hs j⟩
  unfold Vm.wait
  rw [wp_bind, wp_get]
  split
  · next q hq =>
    have hz : (k.procs q).state = .zombie := (by simpa using List.find?_some hq : _ ∧ _).2
    unfold waitReap
    simp only [wp_bind, wp_getProc, wp_onMem]
    refine (copyStatus_spec h hl addr.toNat_lt _).mono fun r s₁ hk => ?_
    obtain ⟨h₁, hs₁⟩ := hk
    split_ifs
    · rw [wp_pure, wp_pure]
      exact ⟨⟨A, h₁⟩, (hall _ hs₁).imp (fun h _ => h) id⟩
    · rw [wp_bind]
      refine (h₁.releaseproc q).mono fun _ k₂ hk => ?_
      obtain ⟨hp₂, h₂, hs₂⟩ := hk
      rw [wp_pure, wp_pure]
      refine ⟨⟨_, h₂⟩, (hall _ fun j => (hs₁ j).trans ?_).imp (fun h _ => h) id⟩
      by_cases hj : j = q
      · subst hj
        exact spares_reset (by rw [hp₂, Function.update_self]) (by rw [hz]; decide)
      · exact hs₂ j hj
  · split_ifs
    · rw [wp_pure]
      exact ⟨⟨A, h⟩, (hall _ fun j => .refl k j).imp (fun h _ => h) id⟩
    · rw [wp_bind, wp_modifyProc, wp_pure]
      refine ⟨⟨A, h.setProc fun hs => hs.fields hl.ne_unused (.inr ⟨hl, .inr (.inr rfl)⟩) rfl rfl
        rfl rfl⟩, fun hn => absurd rfl hn, keeps_fields rfl rfl (fun _ => hl) ?_ ?_, ?_,
        fun j hj => ?_⟩
      · rw [Kernel.setProc_self]
      · rw [Kernel.setProc_self]
      · rw [Kernel.setProc_self]
        exact .inr (.inr rfl)
      · exact spares_fields rfl rfl (by rw [Kernel.setProc_ne hj])

end Wl00.Vm
