import Wl00.Space.Slots

/-!
# The pages of the kernel

Between two operations every page that the allocator does not hold belongs to one
owner: the kernel's own table, or a slot.  That is the invariant `World`.

* `World.update` — one slot has changed, with the pages it holds.
* `Keeps`, `Spares` — a process still has its trapframe, and still runs.
* `Vectors` — its trapframe leads into the kernel.
* `procalloc_spec` — a slot is filled, or nothing has happened.
-/

namespace Wl00.Vm

open Prog
open Sched (Slot ProcState Chan NPROC succPid)

variable {L : Layout} {k k' : Kernel L} {s s' : Mem L} {i p : Slot} {m m' : Bytes}

/-! ## Slots between two operations -/

/-- READY, RUNNING or WAITING. -/
def Proc.Live (p : Proc) : Prop := p.state = .ready ∨ p.state = .running ∨ p.state = .waiting

/-- What the slot `p` holds is `A`, as its state demands. -/
structure SlotOk (L : Layout) (m : Bytes) (p : Proc) (A : Assets) : Prop where
  mem : SlotMem L m p A
  unused : p.state = .unused → p.reset = p ∧ A = .empty
  used : p.state ≠ .unused → A.tf ≠ none ∧ A.kstack ≠ none
  zombie : p.state = .zombie → A.space = none
  fresh : p.state = .new → ∃ sp, A.space = some (sp, ∅)
  live : p.Live → USER_BASE ≤ p.sz ∧ ∃ sp, A.space = some (sp, userDom p.sz)

namespace SlotOk

variable {p p' : Proc} {A : Assets}

theorem congr (h : SlotOk L m p A) (hs : ∀ q ∈ tableSet A.space, SamePage m m' q) :
    SlotOk L m' p A :=
  { h with mem := h.mem.congr hs }

/-- Only these fields matter. -/
theorem fields (h : SlotOk L m p A) (hu : p.state ≠ .unused)
    (hs : p'.state = p.state ∨ (p.Live ∧ p'.Live)) (htf : p'.tf = p.tf)
    (hks : p'.kstack = p.kstack) (hpt : p'.pt = p.pt) (hsz : p'.sz = p.sz) : SlotOk L m p' A where
  mem := {
    tf_eq := htf.trans h.mem.tf_eq
    kstack_eq := hks.trans h.mem.kstack_eq
    pt_eq := hpt.trans h.mem.pt_eq
    tf_range := h.mem.tf_range
    kstack_range := h.mem.kstack_range
    space := fun sp D hsp => hsz ▸ h.mem.space sp D hsp
    apart := h.mem.apart }
  unused hs' := by
    rcases hs with hs | ⟨-, hl⟩
    · exact absurd (hs ▸ hs') hu
    · rcases hl with hl | hl | hl <;> rw [hl] at hs' <;> cases hs'
  used _ := h.used hu
  zombie hs' := by
    rcases hs with hs | ⟨-, hl⟩
    · exact h.zombie (hs ▸ hs')
    · rcases hl with hl | hl | hl <;> rw [hl] at hs' <;> cases hs'
  fresh hs' := by
    rcases hs with hs | ⟨-, hl⟩
    · exact h.fresh (hs ▸ hs')
    · rcases hl with hl | hl | hl <;> rw [hl] at hs' <;> cases hs'
  live hl' := by
    rw [hsz]
    refine h.live ?_
    rcases hs with hs | ⟨hl, -⟩
    · unfold Proc.Live at hl' ⊢
      rwa [hs] at hl'
    · exact hl

/-- A slot that may run. -/
theorem of_live {t ks : Nat} {sp : Space} (h : SlotMem L m p ⟨some t, some ks, some (sp, userDom p.sz)⟩)
    (hl : p.Live) (hlo : USER_BASE ≤ p.sz) :
    SlotOk L m p ⟨some t, some ks, some (sp, userDom p.sz)⟩ where
  mem := h
  unused hs := by rcases hl with hl | hl | hl <;> rw [hl] at hs <;> cases hs
  used _ := ⟨by simp, by simp⟩
  zombie hs := by rcases hl with hl | hl | hl <;> rw [hl] at hs <;> cases hs
  fresh hs := by rcases hl with hl | hl | hl <;> rw [hl] at hs <;> cases hs
  live _ := ⟨hlo, sp, rfl⟩

/-- A zombie has no space. -/
theorem of_zombie {t ks : Nat} (h : SlotMem L m p ⟨some t, some ks, none⟩)
    (hz : p.state = .zombie) : SlotOk L m p ⟨some t, some ks, none⟩ where
  mem := h
  unused hs := by
    rw [hz] at hs
    cases hs
  used _ := ⟨by simp, by simp⟩
  zombie _ := rfl
  fresh hs := by
    rw [hz] at hs
    cases hs
  live hl := by rcases hl with hl | hl | hl <;> rw [hz] at hl <;> cases hl

/-- A slot that `releaseproc` has emptied. -/
theorem of_reset (m : Bytes) (p : Proc) : SlotOk L m p.reset .empty where
  mem := slotMem_of_pages rfl rfl rfl (fun _ => False.elim) (fun _ => False.elim)
    fun _ => False.elim
  unused _ := by
    refine ⟨?_, rfl⟩
    simp [Proc.reset]
  used hs := absurd rfl hs
  zombie hs := by cases hs
  fresh hs := by cases hs
  live hl := by rcases hl with hl | hl | hl <;> cases hl

end SlotOk

theorem Proc.Live.ne_unused {p : Proc} (h : p.Live) : p.state ≠ .unused := by
  rcases h with h | h | h <;> rw [h] <;> decide

/-! ## The invariant -/

/-- Who owns which pages. -/
def owner (kpt : Space) (A : Slot → Assets) : Option Slot → Set Nat
  | none => kpt.tables
  | some i => (A i).pages

theorem owner_update (kpt : Space) (A : Slot → Assets) (i : Slot) (A' : Assets) :
    Function.update (owner kpt A) (some i) A'.pages = owner kpt (Function.update A i A') := by
  funext j
  cases j with
  | none => rfl
  | some j =>
      by_cases hj : j = i
      · subst hj
        simp [owner]
      · rw [Function.update_of_ne (by simpa using hj), owner, owner, Function.update_of_ne hj]

/-- **The invariant of the kernel**: `kptable` is the table `kpt`, slot `i` holds `A i`, and
the pages in use are theirs. -/
structure World (k : Kernel L) (kpt : Space) (A : Slot → Assets) : Prop where
  kptable : k.kptable = kpt.root * 4096
  kholds : Holds L k.mem.bytes kpt
  kpte : kpt.pte = kernelPte L
  slot : ∀ i, SlotOk L k.mem.bytes (k.procs i) (A i)
  pages : Divided k.mem.free (InRange L) (owner kpt A)

namespace World

variable {kpt : Space} {A : Slot → Assets}

theorem held (h : World k kpt A) (i : Slot) : Held k.mem (A i).pages :=
  fun q hq => (h.pages.held (some i) q hq).2

theorem reset (h : World k kpt A) (i : Slot) (hu : (k.procs i).state = .unused) :
    (k.procs i).reset = k.procs i := ((h.slot i).unused hu).1

/-- The pages of another slot are none of one's own. -/
theorem apart (h : World k kpt A) {j : Slot} (hj : j ≠ i) : ∀ q ∈ (A j).pages, q ∉ (A i).pages :=
  fun q hq => (h.pages.other (i := some i) (j := some j) (by simpa using hj) q hq).2

/-- Work on the pages of slot `i`, as slot `j` sees it. -/
theorem same_slot (h : World k kpt A) {B : Set Nat} (hf : Frame k.mem s (A i).pages B) {j : Slot}
    (hj : j ≠ i) : ∀ q ∈ (A j).pages, SamePage k.mem.bytes s.bytes q :=
  fun q hq => hf.same q (h.held j q hq) (h.apart hj q hq)

/-- **One slot has changed**, with the pages it holds. -/
theorem update (h : World k kpt A) {A' : Assets}
    (hf : Frame k.mem k'.mem (A i).pages A'.pages) (hk : k'.kptable = k.kptable)
    (hi : SlotOk L k'.mem.bytes (k'.procs i) A')
    (ho : ∀ j, j ≠ i → SlotOk L k.mem.bytes (k.procs j) (A j) →
      SlotOk L k.mem.bytes (k'.procs j) (A j)) :
    World k' kpt (Function.update A i A') where
  kptable := hk.trans h.kptable
  kholds := h.kholds.frame hf (fun q hq => (h.pages.held none q hq).2)
    fun q hq => (h.pages.other (i := some i) (j := none) (by simp) q hq).2
  kpte := h.kpte
  slot j := by
    by_cases hj : j = i
    · subst hj
      rwa [Function.update_self]
    · rw [Function.update_of_ne hj]
      exact (ho j hj (h.slot j)).congr fun q hq =>
        h.same_slot hf hj q (.inl (.inr (tableSet_subset _ hq)))
  pages := by
    rw [← owner_update]
    exact h.pages.update hf

/-- Memory has not changed. -/
theorem fields (h : World k kpt A) (hm : k'.mem = k.mem) (hk : k'.kptable = k.kptable)
    (ho : ∀ j, SlotOk L k.mem.bytes (k.procs j) (A j) → SlotOk L k.mem.bytes (k'.procs j) (A j)) :
    World k' kpt A where
  kptable := hk.trans h.kptable
  kholds := by
    rw [hm]
    exact h.kholds
  kpte := h.kpte
  slot j := by
    rw [hm]
    exact ho j (h.slot j)
  pages := by
    rw [hm]
    exact h.pages

/-- Nobody's pages have changed. -/
theorem frame (h : World k kpt A) (hf : Frame k.mem k'.mem ∅ ∅) (hk : k'.kptable = k.kptable)
    (hp : k'.procs = k.procs) (i : Slot) : World k' kpt A := by
  have hw := hf.widen_self (h.held i) (Set.empty_subset _)
  rw [← Function.update_eq_self i A]
  refine h.update hw hk ?_ fun j _ hj => hp ▸ hj
  rw [hp]
  exact (h.slot i).congr fun q hq => hf.same q (h.held i q (.inl (.inr (tableSet_subset _ hq)))) id

/-- Slot `i` works on its pages `B`, none of which is one of its table. -/
theorem touch (h : World k kpt A) {B : Set Nat} (hB : B ⊆ (A i).pages)
    (hd : ∀ q ∈ tableSet (A i).space, q ∉ B) (hf : Frame k.mem s B B) :
    World { k with mem := s } kpt A := by
  rw [← Function.update_eq_self i A]
  refine h.update (hf.widen_self (h.held i) hB) rfl ?_ fun _ _ => id
  exact (h.slot i).congr fun q hq =>
    hf.same q (h.held i q (.inl (.inr (tableSet_subset _ hq)))) (hd q hq)

/-- A live slot and its space. -/
theorem space (h : World k kpt A) (hl : (k.procs i).Live) : ∃ t ks sp,
    A i = ⟨some t, some ks, some (sp, userDom (k.procs i).sz)⟩ ∧ USER_BASE ≤ (k.procs i).sz ∧
      (k.procs i).tf = t * 4096 ∧ (k.procs i).pt = sp.root * 4096 ∧
      SpaceOk L k.mem.bytes sp (userDom (k.procs i).sz) (k.procs i).sz := by
  have hs := h.slot i
  obtain ⟨hlo, sp, hsp⟩ := hs.live hl
  obtain ⟨ht, hks⟩ := hs.used hl.ne_unused
  obtain ⟨t, ht⟩ := Option.ne_none_iff_exists'.1 ht
  obtain ⟨ks, hks⟩ := Option.ne_none_iff_exists'.1 hks
  refine ⟨t, ks, sp, ?_, hlo, ?_, ?_, hs.mem.space sp _ hsp⟩
  · rw [← ht, ← hks, ← hsp]
  · rw [hs.mem.tf_eq, ht, pageAddr]
  · rw [hs.mem.pt_eq, hsp]
    rfl

end World

/-! ## What is left of a process -/

/-- The process in slot `q` has its trapframe as before, if it is still there, and would enter
the kernel as before: on the same stack, with the same table. -/
structure Keeps (k k' : Kernel L) (q : Slot) : Prop where
  live : (k'.procs q).Live → (k.procs q).Live
  tf : (k.procs q).Live → (k'.procs q).Live → (k'.procs q).tf = (k.procs q).tf ∧
    ∀ o < 4096, k'.mem.bytes ((k.procs q).tf + o) = k.mem.bytes ((k.procs q).tf + o)
  enter : (k.procs q).Live → (k'.procs q).Live → (k'.procs q).kstack = (k.procs q).kstack ∧
    k'.kptable = k.kptable

/-- Somebody else has been at work: the process runs as before, too. -/
structure Spares (k k' : Kernel L) (q : Slot) : Prop extends Keeps k k' q where
  running : (k'.procs q).state = .running ↔ (k.procs q).state = .running

theorem Keeps.trans {k'' : Kernel L} {q : Slot} (h : Keeps k k' q) (h' : Keeps k' k'' q) :
    Keeps k k'' q where
  live hl := h.live (h'.live hl)
  tf hl hl'' := by
    obtain ⟨e₁, b₁⟩ := h.tf hl (h'.live hl'')
    obtain ⟨e₂, b₂⟩ := h'.tf (h'.live hl'') hl''
    rw [e₁] at e₂ b₂
    exact ⟨e₂, fun o ho => (b₂ o ho).trans (b₁ o ho)⟩
  enter hl hl'' := by
    obtain ⟨s₁, t₁⟩ := h.enter hl (h'.live hl'')
    obtain ⟨s₂, t₂⟩ := h'.enter (h'.live hl'') hl''
    exact ⟨s₂.trans s₁, t₂.trans t₁⟩

theorem Spares.trans {k'' : Kernel L} {q : Slot} (h : Spares k k' q) (h' : Spares k' k'' q) :
    Spares k k'' q :=
  ⟨h.toKeeps.trans h'.toKeeps, h'.running.trans h.running⟩

theorem Spares.refl (k : Kernel L) (q : Slot) : Spares k k q :=
  ⟨⟨id, fun _ _ => ⟨rfl, fun _ _ => rfl⟩, fun _ _ => ⟨rfl, rfl⟩⟩, Iff.rfl⟩

/-- Memory has not changed. -/
theorem keeps_fields {q : Slot} (hm : k'.mem = k.mem) (hk : k'.kptable = k.kptable)
    (hl : (k'.procs q).Live → (k.procs q).Live) (htf : (k'.procs q).tf = (k.procs q).tf)
    (hks : (k'.procs q).kstack = (k.procs q).kstack) : Keeps k k' q :=
  ⟨hl, fun _ _ => ⟨htf, fun _ _ => by rw [hm]⟩, fun _ _ => ⟨hks, hk⟩⟩

theorem spares_fields {q : Slot} (hm : k'.mem = k.mem) (hk : k'.kptable = k.kptable)
    (hp : k'.procs q = k.procs q) : Spares k k' q :=
  ⟨keeps_fields hm hk (fun hl => by rwa [hp] at hl) (by rw [hp]) (by rw [hp]), by rw [hp]⟩

/-- The slot has not changed, nor has the page of its trapframe. -/
theorem World.spares {kpt : Space} {A : Slot → Assets} {q : Slot} (h : World k kpt A)
    (hk : k'.kptable = k.kptable) (hp : k'.procs q = k.procs q)
    (hs : ∀ t, (A q).tf = some t → SamePage k.mem.bytes k'.mem.bytes t) : Spares k k' q := by
  refine ⟨⟨fun hl => by rwa [hp] at hl, fun hl _ => ⟨by rw [hp], fun o ho => ?_⟩,
    fun _ _ => ⟨by rw [hp], hk⟩⟩, by rw [hp]⟩
  obtain ⟨t, ks, sp, hA, -, htf, -, -⟩ := h.space hl
  rw [htf]
  exact hs t (by rw [hA]) o ho

/-- Work on the pages of slot `i`, as another process sees it. -/
theorem World.spares_other {kpt : Space} {A : Slot → Assets} {B : Set Nat} {q : Slot}
    (h : World k kpt A) (hf : Frame k.mem k'.mem (A i).pages B) (hq : q ≠ i)
    (hk : k'.kptable = k.kptable) (hp : k'.procs q = k.procs q) : Spares k k' q := by
  refine h.spares hk hp fun t ht => h.same_slot hf hq t ?_
  exact .inl (.inl (by rw [ht]; rfl))

/-- The trapframe of the process in slot `p` holds what `usertrap` loads besides its stack and
its hart: where the kernel's traps go, the kernel's table and `u_trap_handle`. -/
structure Vectors (k : Kernel L) (p : Slot) : Prop where
  kTrap : k.mem.bytes.word ((k.procs p).tf + kTrapOff) = L.kerneltrap % 2 ^ 32
  kSatp : k.mem.bytes.word ((k.procs p).tf + kSatpOff) = makeSatp k.kptable % 2 ^ 32
  uTrap : k.mem.bytes.word ((k.procs p).tf + uTrapOff) = L.uTrapHandle % 2 ^ 32

/-- They are the bytes from 4 on. -/
theorem Vectors.congr {p q : Slot} (h : Vectors k p) (hk : k'.kptable = k.kptable)
    (hm : ∀ o, 4 ≤ o → o < 16 →
      k'.mem.bytes ((k'.procs q).tf + o) = k.mem.bytes ((k.procs p).tf + o)) : Vectors k' q := by
  have hw : ∀ o, 4 ≤ o → o + 4 ≤ 16 →
      k'.mem.bytes.word ((k'.procs q).tf + o) = k.mem.bytes.word ((k.procs p).tf + o) := by
    refine fun o h1 h2 => Bytes.word_congr fun i hi => ?_
    rw [Nat.add_assoc, Nat.add_assoc]
    exact hm _ (by omega) (by omega)
  refine ⟨?_, ?_, ?_⟩
  · rw [hw kTrapOff (by decide) (by decide)]
    exact h.kTrap
  · rw [hw kSatpOff (by decide) (by decide), hk]
    exact h.kSatp
  · rw [hw uTrapOff (by decide) (by decide)]
    exact h.uTrap

theorem Keeps.vectors {q : Slot} (h : Keeps k k' q) (hl : (k'.procs q).Live) (hv : Vectors k q) :
    Vectors k' q := by
  obtain ⟨htf, hb⟩ := h.tf (h.live hl) hl
  refine hv.congr (h.enter (h.live hl) hl).2 fun o _ ho => ?_
  rw [htf]
  exact hb o (by omega)

/-! ## `procalloc` -/

theorem firstUnused_some {procs : Slot → Proc} (h : firstUnused procs = some i) :
    (procs i).state = .unused := by
  simpa using List.find?_some h

theorem firstUnused_none {procs : Slot → Proc} (h : firstUnused procs = none) (j : Slot) :
    (procs j).state ≠ .unused := by
  simpa using List.find?_eq_none.1 h j (List.mem_finRange j)

variable {kpt : Space} {A : Slot → Assets}

/-- **`procalloc`** finds no slot, or works on one. -/
theorem procalloc_spec (h : ∀ i, (k.procs i).state = .unused → (k.procs i).reset = k.procs i) :
    wp procalloc (fun r k' =>
    (r = none ∧ k' = k ∧ ∀ j, (k.procs j).state ≠ .unused) ∨
      ∃ i, (k.procs i).state = .unused ∧ Allocates i k r k') k := by
  unfold procalloc
  rw [wp_bind, wp_get]
  cases hu : firstUnused k.procs with
  | none =>
      rw [wp_pure]
      exact .inl ⟨rfl, rfl, firstUnused_none hu⟩
  | some i =>
      have hi := firstUnused_some hu
      exact (procallocAt_spec (h i hi)).mono fun r k' hk => .inr ⟨i, hi, hk⟩

/-- The world after `procalloc` has filled slot `i`. -/
theorem World.allocated (h : World k kpt A) (hi : (k.procs i).state = .unused) {t ks : Nat}
    {sp : Space} (hk : k'.kptable = k.kptable)
    (hm : SlotMem L k'.mem.bytes (k'.procs i) ⟨some t, some ks, some (sp, ∅)⟩)
    (hf : Frame k.mem k'.mem ∅ (Assets.pages ⟨some t, some ks, some (sp, ∅)⟩))
    (hp : k'.procs = Function.update k.procs i
      ((k.procs i).filled L k.currPid (t * 4096) (ks * 4096) (sp.root * 4096))) :
    World k' kpt (Function.update A i ⟨some t, some ks, some (sp, ∅)⟩) := by
  have hA := ((h.slot i).unused hi).2
  have hs : (k'.procs i).state = .new := by
    rw [hp, Function.update_self]
    rfl
  refine h.update ?_ hk ?_ ?_
  · rwa [hA, Assets.pages_empty]
  · refine ⟨hm, ?_, ?_, ?_, fun _ => ⟨sp, rfl⟩, ?_⟩
    · intro hc
      rw [hs] at hc
      cases hc
    · exact fun _ => ⟨by simp, by simp⟩
    · intro hc
      rw [hs] at hc
      cases hc
    · intro hc
      rcases hc with hc | hc | hc <;> rw [hs] at hc <;> cases hc
  · intro j hj hs'
    rwa [hp, Function.update_of_ne hj]

theorem World.procalloc (h : World k kpt A) : wp procalloc (fun _ k' => ∃ A', World k' kpt A') k := by
  refine (procalloc_spec h.reset).mono fun r k' hk => ?_
  rcases hk with ⟨-, rfl, -⟩ | ⟨i, hi, -, hkp, ⟨-, hp, hf, -⟩ | ⟨-, t, ks, sp, hm, -, -, hf, hp⟩⟩
  · exact ⟨A, h⟩
  · exact ⟨A, h.frame hf hkp hp i⟩
  · exact ⟨_, h.allocated hi hkp hm hf hp⟩

end Wl00.Vm
