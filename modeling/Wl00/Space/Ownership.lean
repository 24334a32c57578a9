import Wl00.Space.Boot

/-!
# Who owns a page

The owners of pages as they can be read off the kernel's state itself: the fields of
`proctable` and the page tables in memory.

* `pages_partition` — in every reachable state the pages in use are the pages of the
  owners, and no two owners have the same page; nothing that may happen next panics.
* `user_isolation` — what the user pages of a process are, and that they are its own.
* `kernel_agree` — every table maps the kernel as `kptable` does.
-/

namespace Wl00.Vm

open Prog
open Sched (Slot ProcState)

variable {L : Layout} {k k' : Kernel L} {s s' : Mem L} {q : Slot} {kpt : Space}
  {A : Slot → Assets} {progs : Programs} {m : Bytes} {sp : Space} {a : Nat}

/-! ## The pages of a table -/

/-- A page of a page table. -/
inductive TablePart where
  | root
  | second (i : Fin 1024)
  deriving DecidableEq

/-- The address of a page of the table at `pt`. -/
def tablePart (m : Bytes) (pt : Nat) : TablePart → Option Nat
  | .root => some pt
  | .second i =>
      if m.word (pt + 4 * i) % 2 = 1 then some (pte2pa (m.word (pt + 4 * i))) else none

/-- The address of the page behind virtual page `v`, if it is the user's. -/
def userPart (m : Bytes) (pt v : Nat) : Option Nat :=
  if leafEntry m pt v &&& PTE_U ≠ 0 then some (pte2pa (leafEntry m pt v)) else none

theorem Holds.second (h : Holds L m sp) (i : Fin 1024) :
    tablePart m (sp.root * 4096) (.second i) = (sp.tbl i).map (· * 4096) := by
  rw [tablePart, h.root_eq i i.isLt]
  cases ht : sp.tbl i with
  | none => simp [rootWord]
  | some t =>
      have hlt := (h.tbl_range i t ht).1.lt
      have hpa : pte2pa (rootWord (some t)) = t * 4096 := by
        rw [pte2pa_eq, rootWord]
        omega
      rw [if_pos (by simp only [rootWord]; omega), hpa, Option.map_some]

theorem Holds.tablePart_iff (h : Holds L m sp) :
    (∃ x, tablePart m (sp.root * 4096) x = some a) ↔ ∃ t ∈ sp.tables, t * 4096 = a := by
  constructor
  · rintro ⟨x, hx⟩
    cases x with
    | root => exact ⟨sp.root, sp.root_mem, Option.some.inj hx⟩
    | second i =>
        rw [h.second, Option.map_eq_some_iff] at hx
        obtain ⟨t, ht, rfl⟩ := hx
        exact ⟨t, Space.tbl_mem ht, rfl⟩
  · rintro ⟨t, rfl | ⟨i, ht⟩, rfl⟩
    · exact ⟨.root, rfl⟩
    · refine ⟨.second ⟨i, (h.tbl_range i t ht).2.1⟩, ?_⟩
      rw [h.second, ht, Option.map_some]

theorem Holds.tablePart_inj (h : Holds L m sp) {x y : TablePart}
    (hx : tablePart m (sp.root * 4096) x = some a) (hy : tablePart m (sp.root * 4096) y = some a) :
    x = y := by
  have hroot : ∀ i : Fin 1024, tablePart m (sp.root * 4096) (.second i) = some a →
      sp.root * 4096 ≠ a := by
    intro i hi he
    rw [h.second, Option.map_eq_some_iff] at hi
    obtain ⟨t, ht, rfl⟩ := hi
    exact (h.tbl_range i t ht).2.2 (by omega)
  cases x with
  | root =>
      cases y with
      | root => rfl
      | second j => exact absurd (Option.some.inj hx) (hroot j hy)
  | second i =>
      cases y with
      | root => exact absurd (Option.some.inj hy) (hroot i hx)
      | second j =>
          rw [h.second, Option.map_eq_some_iff] at hx hy
          obtain ⟨t, ht, rfl⟩ := hx
          obtain ⟨u, hu, he⟩ := hy
          obtain rfl : u = t := by omega
          rw [Fin.ext (h.tbl_inj i j u ht hu)]

theorem SpaceOk.userPart {D : Set Nat} {sz v : Nat} (h : SpaceOk L m sp D sz) (hv : v < 2 ^ 20) :
    userPart m (sp.root * 4096) v = some a ↔ v ∈ D ∧ sp.page v * 4096 = a := by
  rw [Vm.userPart, h.holds.leafEntry hv]
  by_cases hD : v ∈ D
  · rw [if_pos ((user_bit _).2 (h.shape.flags v hD).2), h.shape.owns.pte2pa hD]
    simp [hD]
  · rw [if_neg fun hu => hD (h.shape.mem_of_user ((user_bit _).1 hu))]
    simp [hD]

/-! ## The pages of a slot -/

/-- A page of a process. -/
inductive SlotPart where
  | trapframe
  | kstack
  | table (x : TablePart)
  | user (v : Fin (2 ^ 20))
  deriving DecidableEq

/-- The address of a page of a slot that is not UNUSED. -/
def slotPart (m : Bytes) (p : Proc) (x : SlotPart) : Option Nat :=
  if p.state = .unused then none
  else match x with
    | .trapframe => some p.tf
    | .kstack => some p.kstack
    | .table y => if p.pt = 0 then none else tablePart m p.pt y
    | .user v => if p.pt = 0 then none else userPart m p.pt v

variable {p : Proc} {B : Assets}

/-- A slot in use and what it holds. -/
theorem SlotOk.assets (h : SlotOk L m p B) (hu : p.state ≠ .unused) : ∃ t ks o,
    B = ⟨some t, some ks, o⟩ ∧ p.tf = t * 4096 ∧ p.kstack = ks * 4096 ∧
      ((o = none ∧ p.pt = 0) ∨
        ∃ sp D, o = some (sp, D) ∧ p.pt = sp.root * 4096 ∧ p.pt ≠ 0 ∧ SpaceOk L m sp D p.sz) := by
  obtain ⟨t, ht⟩ := Option.ne_none_iff_exists'.1 (h.used hu).1
  obtain ⟨ks, hks⟩ := Option.ne_none_iff_exists'.1 (h.used hu).2
  refine ⟨t, ks, B.space, by rw [← ht, ← hks], by rw [h.mem.tf_eq, ht, pageAddr],
    by rw [h.mem.kstack_eq, hks, pageAddr], ?_⟩
  have hpt := h.mem.pt_eq
  cases ho : B.space with
  | none =>
      rw [ho] at hpt
      exact .inl ⟨rfl, hpt⟩
  | some x =>
      obtain ⟨sp, D⟩ := x
      rw [ho] at hpt
      have hok := h.mem.space sp D ho
      have hroot : p.pt = sp.root * 4096 := hpt
      have := hok.holds.root_range.lt
      exact .inr ⟨sp, D, rfl, hroot, by omega, hok⟩

/-- Page `u` is part `x` of a slot that holds the trapframe `t`, the kernel stack `ks` and
the space `o`. -/
def IsPart (m : Bytes) (t ks : Nat) (o : Option (Space × Set Nat)) (u : Nat) : SlotPart → Prop
  | .trapframe => u = t
  | .kstack => u = ks
  | .table y => ∃ sp D, o = some (sp, D) ∧ tablePart m (sp.root * 4096) y = some (u * 4096)
  | .user v => ∃ sp D, o = some (sp, D) ∧ ↑v ∈ D ∧ sp.page v = u

theorem SlotOk.isPart {t ks u : Nat} {o : Option (Space × Set Nat)} {x : SlotPart}
    (h : SlotOk L m p ⟨some t, some ks, o⟩) (hu : p.state ≠ .unused) :
    slotPart m p x = some (u * 4096) ↔ IsPart m t ks o u x := by
  obtain ⟨t', ks', o', he, htf, hks, ho⟩ := h.assets hu
  cases he
  have hinj : ∀ c, some (c * 4096) = some (u * 4096) ↔ u = c := by
    intro c
    rw [Option.some.injEq]
    omega
  unfold slotPart
  rw [if_neg hu]
  cases x with
  | trapframe =>
      dsimp only
      rw [htf, hinj, IsPart]
  | kstack =>
      dsimp only
      rw [hks, hinj, IsPart]
  | table y =>
      dsimp only [IsPart]
      rcases ho with ⟨rfl, hpt⟩ | ⟨sp, D, rfl, hpt, hne, -⟩
      · simp [hpt]
      · rw [if_neg hne, hpt]
        simp
  | user v =>
      dsimp only [IsPart]
      rcases ho with ⟨rfl, hpt⟩ | ⟨sp, D, rfl, hpt, hne, hok⟩
      · simp [hpt]
      · rw [if_neg hne, hpt, hok.userPart v.isLt]
        simp only [Option.some.injEq, Prod.mk.injEq]
        constructor
        · rintro ⟨hv, he⟩
          exact ⟨sp, D, ⟨rfl, rfl⟩, hv, by omega⟩
        · rintro ⟨_, _, ⟨rfl, rfl⟩, hv, rfl⟩
          exact ⟨hv, rfl⟩

/-- The address of a part is that of a page. -/
theorem SlotOk.slotPart_aligned (h : SlotOk L m p B) {x : SlotPart} (hx : slotPart m p x = some a) :
    ∃ u, a = u * 4096 := by
  have hu : p.state ≠ .unused := by
    intro hu
    simp [slotPart, hu] at hx
  obtain ⟨t, ks, o, rfl, htf, hks, ho⟩ := h.assets hu
  unfold slotPart at hx
  rw [if_neg hu] at hx
  cases x with
  | trapframe => exact ⟨t, htf ▸ (Option.some.inj hx).symm⟩
  | kstack => exact ⟨ks, hks ▸ (Option.some.inj hx).symm⟩
  | table y =>
      dsimp only at hx
      rcases ho with ⟨-, hpt⟩ | ⟨sp, D, rfl, hpt, hne, hok⟩
      · simp [hpt] at hx
      · rw [if_neg hne, hpt] at hx
        obtain ⟨u, -, rfl⟩ := hok.holds.tablePart_iff.1 ⟨y, hx⟩
        exact ⟨u, rfl⟩
  | user v =>
      dsimp only at hx
      rcases ho with ⟨-, hpt⟩ | ⟨sp, D, rfl, hpt, hne, hok⟩
      · simp [hpt] at hx
      · rw [if_neg hne, hpt] at hx
        obtain ⟨-, rfl⟩ := (hok.userPart v.isLt).1 hx
        exact ⟨_, rfl⟩

/-- A part is one of the pages that the slot holds. -/
theorem SlotOk.part_mem {t ks u : Nat} {o : Option (Space × Set Nat)} {x : SlotPart}
    (h : SlotOk L m p ⟨some t, some ks, o⟩) (hx : IsPart m t ks o u x) :
    u ∈ Assets.pages ⟨some t, some ks, o⟩ := by
  cases x with
  | trapframe => exact .inl (.inl hx)
  | kstack => exact .inr hx
  | table y =>
      obtain ⟨sp, D, rfl, hy⟩ := hx
      obtain ⟨u', hu', he⟩ := (h.mem.space sp D rfl).holds.tablePart_iff.1 ⟨y, hy⟩
      obtain rfl : u' = u := by omega
      exact .inl (.inr (.inl hu'))
  | user v =>
      obtain ⟨sp, D, rfl, hv, rfl⟩ := hx
      exact .inl (.inr (.inr ⟨v, hv, rfl⟩))

/-- The parts of a slot are the pages that it holds. -/
theorem SlotOk.slotPart_iff (h : SlotOk L m p B) {u : Nat} :
    (∃ x, slotPart m p x = some (u * 4096)) ↔ u ∈ B.pages := by
  by_cases hu : p.state = .unused
  · simp [slotPart, hu, (h.unused hu).2, Assets.pages_empty]
  obtain ⟨t, ks, o, rfl, -, -, -⟩ := h.assets hu
  simp only [h.isPart hu]
  constructor
  · rintro ⟨x, hx⟩
    exact h.part_mem hx
  · rintro ((rfl | hu) | rfl)
    · exact ⟨.trapframe, rfl⟩
    · cases o with
      | none => exact hu.elim
      | some y =>
          obtain ⟨sp, D⟩ := y
          have hok := h.mem.space sp D rfl
          rcases hu with hu | ⟨v, hv, rfl⟩
          · obtain ⟨y, hy⟩ := hok.holds.tablePart_iff.2 ⟨u, hu, rfl⟩
            exact ⟨.table y, sp, D, rfl, hy⟩
          · exact ⟨.user ⟨v, hok.shape.lt hv⟩, sp, D, rfl, hv, rfl⟩
    · exact ⟨.kstack, rfl⟩

/-- No two parts of a slot have the same page. -/
theorem SlotOk.isPart_inj {t ks u : Nat} {o : Option (Space × Set Nat)} {x y : SlotPart}
    (h : SlotOk L m p ⟨some t, some ks, o⟩) (hx : IsPart m t ks o u x)
    (hy : IsPart m t ks o u y) : x = y := by
  have htk : ks ≠ t := fun he => h.mem.apart.kstack ks rfl (.inl he)
  have htable : ∀ z, IsPart m t ks o u (.table z) → u ∈ tableSet o := by
    rintro z ⟨sp, D, rfl, hz⟩
    obtain ⟨u', hu', he⟩ := (h.mem.space sp D rfl).holds.tablePart_iff.1 ⟨z, hz⟩
    obtain rfl : u' = u := by omega
    exact hu'
  have huser : ∀ v, IsPart m t ks o u (.user v) → u ∈ spaceSet o ∧ u ∉ tableSet o := by
    rintro v ⟨sp, D, rfl, hv, rfl⟩
    exact ⟨.inr ⟨v, hv, rfl⟩, (h.mem.space sp D rfl).shape.owns.apart v hv⟩
  have ht : ∀ u', u' ∈ spaceSet o → u' ≠ t := fun u' hu' => h.mem.apart.tf_space u' hu'
  have hk : ∀ u', u' ∈ spaceSet o → u' ≠ ks := by
    rintro u' hu' rfl
    exact h.mem.apart.kstack u' rfl (.inr hu')
  cases x with
  | trapframe =>
      cases y with
      | trapframe => rfl
      | kstack => exact absurd (hy.symm.trans hx) htk
      | table z => exact absurd hx (ht u (tableSet_subset _ (htable z hy)))
      | user v => exact absurd hx (ht u (huser v hy).1)
  | kstack =>
      cases y with
      | trapframe => exact absurd (hx.symm.trans hy) htk
      | kstack => rfl
      | table z => exact absurd hx (hk u (tableSet_subset _ (htable z hy)))
      | user v => exact absurd hx (hk u (huser v hy).1)
  | table w =>
      cases y with
      | trapframe => exact absurd hy (ht u (tableSet_subset _ (htable w hx)))
      | kstack => exact absurd hy (hk u (tableSet_subset _ (htable w hx)))
      | table z =>
          obtain ⟨sp, D, rfl, hw⟩ := hx
          obtain ⟨_, _, he, hz⟩ := hy
          cases he
          rw [(h.mem.space sp D rfl).holds.tablePart_inj hw hz]
      | user v => exact absurd (htable w hx) (huser v hy).2
  | user v =>
      cases y with
      | trapframe => exact absurd hy (ht u (huser v hx).1)
      | kstack => exact absurd hy (hk u (huser v hx).1)
      | table z => exact absurd (htable z hy) (huser v hx).2
      | user w =>
          obtain ⟨sp, D, rfl, hv, he⟩ := hx
          obtain ⟨_, _, ho, hw, he'⟩ := hy
          cases ho
          rw [Fin.ext ((h.mem.space sp D rfl).shape.owns.inj v hv w hw (he.trans he'.symm))]

/-! ## The partition -/

/-- Whoever may own a page. -/
inductive Owner where
  | kptable (x : TablePart)
  | slot (q : Slot) (x : SlotPart)
  deriving DecidableEq

/-- The address of the page of an owner, read off the kernel's state. -/
def Kernel.owned (k : Kernel L) : Owner → Option Nat
  | .kptable x => tablePart k.mem.bytes k.kptable x
  | .slot q x => slotPart k.mem.bytes (k.procs q) x

/-- The owner's index in the invariant. -/
def Owner.index : Owner → Option Slot
  | .kptable _ => none
  | .slot q _ => some q

theorem World.owned_mem (h : World k kpt A) {o : Owner} (ho : k.owned o = some a) :
    ∃ u ∈ owner kpt A o.index, a = u * 4096 := by
  cases o with
  | kptable x =>
      rw [Kernel.owned, h.kptable] at ho
      obtain ⟨u, hu, rfl⟩ := h.kholds.tablePart_iff.1 ⟨x, ho⟩
      exact ⟨u, hu, rfl⟩
  | slot q x =>
      obtain ⟨u, rfl⟩ := (h.slot q).slotPart_aligned ho
      exact ⟨u, (h.slot q).slotPart_iff.1 ⟨x, ho⟩, rfl⟩

theorem World.mem_owned (h : World k kpt A) {i : Option Slot} {u : Nat} (hu : u ∈ owner kpt A i) :
    ∃ o, k.owned o = some (u * 4096) := by
  cases i with
  | none =>
      obtain ⟨x, hx⟩ := h.kholds.tablePart_iff.2 ⟨u, hu, rfl⟩
      exact ⟨.kptable x, by rw [Kernel.owned, h.kptable, hx]⟩
  | some q =>
      obtain ⟨x, hx⟩ := (h.slot q).slotPart_iff.2 hu
      exact ⟨.slot q x, hx⟩

theorem World.owned_inj (h : World k kpt A) {o o' : Owner} (ho : k.owned o = some a)
    (ho' : k.owned o' = some a) : o = o' := by
  obtain ⟨u, hu, rfl⟩ := h.owned_mem ho
  obtain ⟨u', hu', he⟩ := h.owned_mem ho'
  obtain rfl : u' = u := by omega
  have hidx := h.pages.apart _ _ _ hu hu'
  cases o with
  | kptable x =>
      cases o' with
      | kptable y =>
          rw [Kernel.owned, h.kptable] at ho ho'
          rw [h.kholds.tablePart_inj ho ho']
      | slot q y => cases hidx
  | slot q x =>
      cases o' with
      | kptable y => cases hidx
      | slot q' y =>
          cases hidx
          have hs := h.slot q
          have hne : (k.procs q).state ≠ .unused := by
            intro hc
            simp [Kernel.owned, slotPart, hc] at ho
          obtain ⟨t, ks, o, hA, -, -, -⟩ := hs.assets hne
          rw [hA] at hs
          rw [hs.isPart_inj ((hs.isPart hne).1 ho) ((hs.isPart hne).1 ho')]

/-- **Page ownership is a partition.**  Boot panics only on a machine on which it cannot
succeed.  In every state that is reached afterwards, by whatever operations: a page that
the allocator manages is in use if and only if it has an owner; no page has two; and
every operation that may come next completes. -/
theorem pages_partition (progs : Programs) :
    (∀ bytes e, boot progs (.start L bytes) = .error e → BootPanic e) ∧
    ∀ k : Kernel L, (system L progs).Reachable k →
      (∀ u, (InRange L u ∧ ¬k.mem.free u) ↔ ∃ o, k.owned o = some (u * 4096)) ∧
      (∀ o a, k.owned o = some a → a % PAGE_SIZE = 0) ∧
      (∀ o o' a, k.owned o = some a → k.owned o' = some a → o = o') ∧
      ∀ op : Op, op.enabled k → ∃ k', op.run progs k = .ok ((), k') := by
  refine ⟨fun bytes e he => ((boot_spec progs bytes).of_error he).1, fun k hr => ?_⟩
  obtain ⟨kpt, A, h⟩ := world_reachable hr
  refine ⟨fun u => ⟨?_, ?_⟩, ?_, fun o o' a ho ho' => h.owned_inj ho ho', fun op hop => ?_⟩
  · rintro ⟨hin, hu⟩
    obtain ⟨i, hi⟩ := h.pages.cover u hin hu
    exact h.mem_owned hi
  · rintro ⟨o, ho⟩
    obtain ⟨u', hu', he⟩ := h.owned_mem ho
    obtain rfl : u' = u := by omega
    exact h.pages.held _ _ hu'
  · intro o a ho
    obtain ⟨u, -, rfl⟩ := h.owned_mem ho
    simp only [PAGE_SIZE]
    omega
  · have hstep : wp (op.run progs) _ k := world_step h hop
    obtain ⟨_, k', hrun, -⟩ := wp_iff.1 hstep
    exact ⟨k', hrun⟩

theorem pages_partition_tiny : ∃ k : Kernel tinyLayout,
    (system tinyLayout tinyPrograms).Reachable k ∧
      (∀ u, (InRange tinyLayout u ∧ ¬k.mem.free u) ↔ ∃ o, k.owned o = some (u * 4096)) ∧
      ∃ p k', (Op.fork p).run tinyPrograms k = .ok ((), k') := by
  obtain ⟨k, p, hr, hp, -, -⟩ := tiny_runs
  obtain ⟨hiff, -, -, hops⟩ := (pages_partition (L := tinyLayout) tinyPrograms).2 k hr
  obtain ⟨k', hrun⟩ := hops (.fork p) hp
  exact ⟨k, hr, hiff, p, k', hrun⟩

/-! ## User pages -/

theorem read_bit (w : Nat) : w &&& PTE_R ≠ 0 ↔ w / 2 % 2 = 1 := by
  have hbits : ∀ r < 32, (r &&& PTE_R ≠ 0 ↔ r / 2 % 2 = 1) := by decide
  rw [and_lt_32 (by decide), hbits (w % 32) (by omega)]
  omega

theorem mem_userDom {sz v : Nat} (ha : sz % 4096 = 0) :
    v ∈ userDom sz ↔
      (USER_BASE ≤ v * 4096 ∧ v * 4096 < sz) ∨ v * 4096 = USER_STACK_TOP - PAGE_SIZE := by
  rw [show USER_STACK_TOP - PAGE_SIZE = stackPage * 4096 from rfl]
  simp only [userDom, imagePages, Set.mem_union, Set.mem_Ico, Set.mem_singleton_iff, USER_BASE,
    stackPage]
  omega

/-- **User address spaces are isolated.**  In every reachable state, for every process that
is READY, RUNNING or WAITING: its size is that of whole pages between `USER_BASE` and
`UART_0`; the user's pages are those of `[USER_BASE, sz)` and the stack; each of them can
be read and lies on a page that the allocator manages; and that page has no other owner,
be it a user page, a table, a trapframe or a kernel stack. -/
theorem user_isolation (hr : (system L progs).Reachable k) (hl : (k.procs q).Live) :
    (k.procs q).pt ≠ 0 ∧ (k.procs q).sz % PAGE_SIZE = 0 ∧ USER_BASE ≤ (k.procs q).sz ∧
    (k.procs q).sz ≤ UART_0 ∧
    (∀ v < 2 ^ 20, leafEntry k.mem.bytes (k.procs q).pt v &&& PTE_U ≠ 0 ↔
      (USER_BASE ≤ v * 4096 ∧ v * 4096 < (k.procs q).sz) ∨ v * 4096 = USER_STACK_TOP - PAGE_SIZE) ∧
    ∀ v : Fin (2 ^ 20), leafEntry k.mem.bytes (k.procs q).pt v &&& PTE_U ≠ 0 →
      leafEntry k.mem.bytes (k.procs q).pt v &&& PTE_V ≠ 0 ∧
      leafEntry k.mem.bytes (k.procs q).pt v &&& PTE_R ≠ 0 ∧
      L.startPage ≤ pte2pa (leafEntry k.mem.bytes (k.procs q).pt v) ∧
      pte2pa (leafEntry k.mem.bytes (k.procs q).pt v) < MEM_END ∧
      ∀ o, k.owned o = some (pte2pa (leafEntry k.mem.bytes (k.procs q).pt v)) ↔
        o = .slot q (.user v) := by
  obtain ⟨kpt, A, h⟩ := world_reachable hr
  obtain ⟨t, ks, sp, hA, hlo, -, hpt, hok⟩ := h.space hl
  have hroot := hok.holds.root_range.lt
  have hpt0 : (k.procs q).pt ≠ 0 := by
    rw [hpt]
    omega
  have huser : ∀ v < 2 ^ 20, leafEntry k.mem.bytes (k.procs q).pt v &&& PTE_U ≠ 0 ↔
      v ∈ userDom (k.procs q).sz := by
    intro v hv
    rw [hpt, hok.holds.leafEntry hv, user_bit]
    exact ⟨hok.shape.mem_of_user, fun hD => (hok.shape.flags v hD).2⟩
  refine ⟨hpt0, hok.aligned, hlo, hok.le, fun v hv => ?_, fun v hv => ?_⟩
  · rw [huser v hv, mem_userDom hok.aligned]
  · have hD := (huser v v.isLt).1 hv
    have hin := hok.shape.owns.range v hD
    have howns : k.owned (.slot q (.user v)) =
        some (pte2pa (leafEntry k.mem.bytes (k.procs q).pt v)) := by
      simp only [Kernel.owned, slotPart, if_neg hl.ne_unused, if_neg hpt0, userPart]
      rw [if_pos hv]
    refine ⟨?_, ?_, ?_, ?_, fun o => ⟨fun ho => h.owned_inj ho howns, fun ho => ho ▸ howns⟩⟩
    · rw [hpt, hok.holds.leafEntry v.isLt, PTE_V, and_one_ne]
      exact hok.shape.owns.valid v hD
    · rw [hpt, hok.holds.leafEntry v.isLt, read_bit]
      exact (hok.shape.flags v hD).1
    · rw [hpt, hok.holds.leafEntry v.isLt, hok.shape.owns.pte2pa hD]
      exact hin.1
    · rw [hpt, hok.holds.leafEntry v.isLt, hok.shape.owns.pte2pa hD]
      have := hin.2
      simp only [MEM_END]
      omega

theorem user_isolation_tiny : ∃ (k : Kernel tinyLayout) (p : Slot),
    (system tinyLayout tinyPrograms).Reachable k ∧ (k.procs p).Live ∧
      leafEntry k.mem.bytes (k.procs p).pt 1 &&& PTE_U ≠ 0 ∧
      leafEntry k.mem.bytes (k.procs p).pt 0 &&& PTE_U = 0 := by
  obtain ⟨k, p, hr, hp, hsz, -⟩ := tiny_runs
  have hl : (k.procs p).Live := .inr (.inl hp)
  obtain ⟨-, -, -, -, huser, -⟩ := user_isolation hr hl
  rw [hsz] at huser
  refine ⟨k, p, hr, hl, (huser 1 (by decide)).2 (by decide), ?_⟩
  by_contra h0
  exact absurd ((huser 0 (by decide)).1 h0) (by decide)

/-! ## The kernel's half -/

/-- The virtual pages that the kernel maps: RAM and the UART. -/
def KernelHalf (v : Nat) : Prop := (KERNBASE ≤ v * 4096 ∧ v * 4096 < MEM_END) ∨ v * 4096 = UART_0

/-- The entry of a page that the kernel maps: the page itself, to be read, and to be
executed if it is text and to be written otherwise. -/
theorem kernelPte_half {v : Nat} (hv : KernelHalf v) :
    kernelPte L v = v * 1024 + 11 ∨ kernelPte L v = v * 1024 + 7 := by
  obtain ⟨b, n, d, hb, hn, hd, hbd, ht, he⟩ := L.pages
  simp only [KernelHalf, KERNBASE, MEM_END, UART_0] at hv
  unfold kernelPte
  by_cases h1 : 0x80000 ≤ v ∧ v * 4096 < L.etext
  · rw [if_pos h1]
    exact .inl rfl
  · rw [if_neg h1, if_pos (by omega)]
    exact .inr rfl

theorem kernelPte_other {v : Nat} (hv : ¬KernelHalf v) : kernelPte L v = 0 := by
  obtain ⟨b, n, d, hb, hn, hd, hbd, ht, he⟩ := L.pages
  simp only [KernelHalf, KERNBASE, MEM_END, UART_0] at hv
  unfold kernelPte
  rw [if_neg (by omega), if_neg (by omega)]

theorem not_kernelHalf {sp : Space} {D : Set Nat} (h : Shape L sp D) {v : Nat} (hv : v ∈ D) :
    ¬KernelHalf v := by
  have := h.low v hv
  simp only [KernelHalf, KERNBASE, MEM_END, UART_0, stackPage] at *
  omega

/-- **Every page table agrees with `kptable` on the kernel.**  In every reachable state:
`kptable` maps RAM and the UART to themselves, without `PTE_U`, and nothing else; and in
the table of every process the same pages have the same entries, and whatever else is
mapped there has `PTE_U`. -/
theorem kernel_agree (hr : (system L progs).Reachable k) :
    (∀ v < 2 ^ 20, KernelHalf v → leafEntry k.mem.bytes k.kptable v &&& PTE_V ≠ 0 ∧
      pte2pa (leafEntry k.mem.bytes k.kptable v) = v * 4096 ∧
      leafEntry k.mem.bytes k.kptable v &&& PTE_U = 0) ∧
    (∀ v < 2 ^ 20, ¬KernelHalf v → leafEntry k.mem.bytes k.kptable v = 0) ∧
    ∀ q, (k.procs q).pt ≠ 0 →
      (∀ v < 2 ^ 20, KernelHalf v →
        leafEntry k.mem.bytes (k.procs q).pt v = leafEntry k.mem.bytes k.kptable v) ∧
      ∀ v < 2 ^ 20, ¬KernelHalf v → leafEntry k.mem.bytes (k.procs q).pt v &&& PTE_V ≠ 0 →
        leafEntry k.mem.bytes (k.procs q).pt v &&& PTE_U ≠ 0 := by
  obtain ⟨kpt, A, h⟩ := world_reachable hr
  have hk : ∀ v < 2 ^ 20, leafEntry k.mem.bytes k.kptable v = kernelPte L v := by
    intro v hv
    rw [h.kptable, h.kholds.leafEntry hv, h.kpte]
  refine ⟨fun v hv hh => ?_, fun v hv hh => ?_, fun q hq => ?_⟩
  · rw [hk v hv, PTE_V, and_one_ne, pte2pa_eq]
    have hnu : ¬(kernelPte L v &&& PTE_U ≠ 0) := by
      rw [user_bit, kernelPte_user]
      decide
    refine ⟨?_, ?_, not_not.1 hnu⟩
    · rcases kernelPte_half (L := L) hh with he | he <;> rw [he] <;> omega
    · rcases kernelPte_half (L := L) hh with he | he <;> rw [he] <;> omega
  · rw [hk v hv, kernelPte_other hh]
  · have hne : (k.procs q).state ≠ .unused := by
      intro hu
      apply hq
      rw [← h.reset q hu]
      rfl
    obtain ⟨t, ks, o, -, -, -, ⟨-, h0⟩ | ⟨sp, D, rfl, hpt, -, hok⟩⟩ := (h.slot q).assets hne
    · exact absurd h0 hq
    · rw [hpt]
      refine ⟨fun v hv hh => ?_, fun v hv hh hval => ?_⟩
      · rw [hok.holds.leafEntry hv, hk v hv]
        exact hok.shape.kernel v fun hD => not_kernelHalf hok.shape hD hh
      · rw [hok.holds.leafEntry hv] at hval ⊢
        rw [user_bit]
        by_contra hu
        have hD : v ∉ D := fun hD => hu (hok.shape.flags v hD).2
        rw [hok.shape.kernel v hD, kernelPte_other hh] at hval
        exact hval rfl

theorem kernel_agree_tiny : ∃ (k : Kernel tinyLayout) (p : Slot),
    (system tinyLayout tinyPrograms).Reachable k ∧ (k.procs p).pt ≠ 0 ∧
      leafEntry k.mem.bytes (k.procs p).pt 0x80001 = leafEntry k.mem.bytes k.kptable 0x80001 ∧
      pte2pa (leafEntry k.mem.bytes k.kptable 0x80001) = 0x80001000 := by
  obtain ⟨k, p, hr, hp, -, -⟩ := tiny_runs
  obtain ⟨kpt, A, h⟩ := world_reachable hr
  obtain ⟨t, ks, sp, -, -, -, hpt, hok⟩ := h.space (.inr (.inl hp))
  have hroot := hok.holds.root_range.lt
  have hne : (k.procs p).pt ≠ 0 := by
    rw [hpt]
    omega
  obtain ⟨hself, -, hall⟩ := kernel_agree hr
  have hhalf : KernelHalf 0x80001 := .inl (by decide)
  exact ⟨k, p, hr, hne, (hall p hne).1 _ (by decide) hhalf, (hself _ (by decide) hhalf).2.1⟩

end Wl00.Vm
