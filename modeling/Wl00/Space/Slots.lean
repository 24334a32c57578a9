import Wl00.Space.Copy
import Wl00.Space.Elf
import Wl00.Vm.Kernel

/-!
# Slots and their pages

A slot of `proctable` holds up to three things in memory: a trapframe, a kernel stack
and a user space.  `SlotMem` ties the fields of the slot to them, for a slot in any
stage of being filled or emptied; `SlotOk` says what a slot has between two operations
of the kernel, in each of its states.

* `releaseproc_spec` — `releaseproc` gives back whatever a slot holds.
* `procallocAt_spec` — `procalloc` fills a slot, or leaves it as it was.
-/

namespace Wl00.Vm

open Prog
open Sched (Slot ProcState Chan NPROC succPid)

variable {L : Layout} {k : Kernel L} {s s' : Mem L} {i : Slot}

/-! ## Programs on the kernel -/

section Rules

variable {α : Type}

@[simp] theorem wp_onMem {m : MemM L α} {Q : α → Kernel L → Prop} :
    wp (onMem m) Q k ↔ wp m (fun a t => Q a { k with mem := t }) k.mem := wp_zoom

@[simp] theorem wpe_onMem {m : MemM L α} {Q : α → Kernel L → Prop} {E : Panic → Prop} :
    wpe (onMem m) Q E k ↔ wpe m (fun a t => Q a { k with mem := t }) E k.mem := wpe_zoom

@[simp] theorem wp_getProc {Q : Proc → Kernel L → Prop} :
    wp (getProc i) Q k ↔ Q (k.procs i) k := by
  rw [getProc, wp_bind, wp_get, wp_pure]

@[simp] theorem wpe_getProc {Q : Proc → Kernel L → Prop} {E : Panic → Prop} :
    wpe (getProc i) Q E k ↔ Q (k.procs i) k := by
  rw [getProc, wpe_bind, wpe_get, wpe_pure]

@[simp] theorem wp_modifyProc {Q : Unit → Kernel L → Prop} {f : Proc → Proc} :
    wp (modifyProc i f) Q k ↔ Q () (k.setProc i f) := by
  rw [modifyProc, wp_modify]

@[simp] theorem Kernel.setProc_self (f : Proc → Proc) :
    (k.setProc i f).procs i = f (k.procs i) := Function.update_self ..

@[simp] theorem Kernel.setProc_ne {j : Slot} (hj : j ≠ i) (f : Proc → Proc) :
    (k.setProc i f).procs j = k.procs j := Function.update_of_ne hj ..

end Rules

/-! ## What a slot holds -/

/-- The pages of a slot: its trapframe, its kernel stack, and its user space with the
virtual pages that are mapped in it. -/
structure Assets where
  tf : Option Nat
  kstack : Option Nat
  space : Option (Space × Set Nat)

/-- A pointer to a page. -/
def pageAddr : Option Nat → Nat
  | none => 0
  | some p => p * 4096

def pageSet : Option Nat → Set Nat
  | none => ∅
  | some p => {p}

def spaceSet : Option (Space × Set Nat) → Set Nat
  | none => ∅
  | some (sp, D) => sp.tables ∪ sp.frames D

/-- The pages of the table alone. -/
def tableSet : Option (Space × Set Nat) → Set Nat
  | none => ∅
  | some (sp, _) => sp.tables

theorem tableSet_subset (o : Option (Space × Set Nat)) : tableSet o ⊆ spaceSet o := by
  cases o with
  | none => exact subset_rfl
  | some x => exact Set.subset_union_left

namespace Assets

def empty : Assets := ⟨none, none, none⟩

def pages (A : Assets) : Set Nat := pageSet A.tf ∪ spaceSet A.space ∪ pageSet A.kstack

theorem pages_empty : empty.pages = ∅ := by
  simp [pages, empty, pageSet, spaceSet]

theorem pages_some (t ks : Nat) (o : Option (Space × Set Nat)) :
    pages ⟨some t, some ks, o⟩ = {ks} ∪ {t} ∪ spaceSet o := by
  show {t} ∪ spaceSet o ∪ {ks} = _
  rw [Set.union_right_comm, Set.union_comm {t}]

/-- The three parts have no page in common. -/
structure Apart (A : Assets) : Prop where
  tf_space : ∀ p ∈ spaceSet A.space, p ∉ pageSet A.tf
  kstack : ∀ p ∈ pageSet A.kstack, p ∉ pageSet A.tf ∪ spaceSet A.space

end Assets

/-- `sp` is a user space for a process of size `sz`, in which the pages `D` are mapped. -/
structure SpaceOk (L : Layout) (m : Bytes) (sp : Space) (D : Set Nat) (sz : Nat) : Prop where
  holds : Holds L m sp
  shape : Shape L sp D
  sub : D ⊆ userDom sz
  aligned : sz % 4096 = 0
  le : sz ≤ UART_0

/-- The pointers of the slot `p` are those to `A`. -/
structure SlotMem (L : Layout) (m : Bytes) (p : Proc) (A : Assets) : Prop where
  tf_eq : p.tf = pageAddr A.tf
  kstack_eq : p.kstack = pageAddr A.kstack
  pt_eq : p.pt = pageAddr (A.space.map (·.1.root))
  tf_range : ∀ x ∈ pageSet A.tf, InRange L x
  kstack_range : ∀ x ∈ pageSet A.kstack, InRange L x
  space : ∀ sp D, A.space = some (sp, D) → SpaceOk L m sp D p.sz
  apart : A.Apart

theorem SpaceOk.within {m : Bytes} {sp : Space} {D : Set Nat} {sz : Nat}
    (h : SpaceOk L m sp D sz) : Within L sp sz D :=
  ⟨h.shape.owns, h.sub, h.shape.rest h.le⟩

/-- A pointer is NULL if there is nothing it could point to. -/
theorem pageAddr_ne {o : Option Nat} (h : ∀ x ∈ pageSet o, InRange L x) :
    pageAddr o ≠ 0 ↔ o ≠ none := by
  cases o with
  | none => simp [pageAddr]
  | some p =>
      have := (h p rfl).lt
      simp only [pageAddr, ne_eq, reduceCtorEq, not_false_eq_true, iff_true]
      omega

/-- A slot holds its table, two more pages and its user pages. -/
theorem SlotMem.pages_card {m : Bytes} {p : Proc} {t ks : Nat} {sp : Space} {D : Set Nat}
    (h : SlotMem L m p ⟨some t, some ks, some (sp, D)⟩) {E : Finset Nat} (hE : D ⊆ E) :
    ∃ G : Finset Nat, G.card ≤ 1027 + E.card ∧
      ∀ q ∈ Assets.pages ⟨some t, some ks, some (sp, D)⟩, q ∈ G := by
  obtain ⟨G, hG, hmem⟩ := (h.space sp D rfl).holds.tables_card
  refine ⟨insert ks (insert t (G ∪ E.image sp.page)), ?_, ?_⟩
  · have h1 := Finset.card_insert_le ks (insert t (G ∪ E.image sp.page))
    have h2 := Finset.card_insert_le t (G ∪ E.image sp.page)
    have h3 := Finset.card_union_le G (E.image sp.page)
    have h4 := Finset.card_image_le (s := E) (f := sp.page)
    omega
  · rw [Assets.pages_some]
    rintro q ((rfl | rfl) | hq | ⟨v, hv, rfl⟩)
    · simp
    · simp
    · simp [hmem q hq]
    · simp only [Finset.mem_insert, Finset.mem_union]
      exact .inr (.inr (.inr (Finset.mem_image_of_mem _ (hE hv))))

/-! ## `releaseproc` -/

theorem kfree_ifSet {o : Option Nat} (hr : ∀ x ∈ pageSet o, InRange L x) (hh : Held s (pageSet o)) :
    wp (ifSet (pageAddr o) (kfree (pageAddr o))) (fun _ s' => Frame s s' (pageSet o) ∅) s := by
  unfold ifSet
  cases o with
  | none =>
      rw [if_neg (by simp [pageAddr]), wp_pure]
      exact .refl hh
  | some p =>
      rw [if_pos ((pageAddr_ne hr).2 (by simp))]
      exact (kfree_spec (hr p rfl) (hh p rfl)).mono fun _ _ h => h.1

theorem uvmfree_ifSet {o : Option (Space × Set Nat)} {sz : Nat}
    (h : ∀ sp D, o = some (sp, D) → SpaceOk L s.bytes sp D sz) (hh : Held s (spaceSet o)) :
    wp (ifSet (pageAddr (o.map (·.1.root))) (uvmfree (pageAddr (o.map (·.1.root))) sz))
      (fun _ s' => Frame s s' (spaceSet o) ∅) s := by
  unfold ifSet
  cases o with
  | none =>
      rw [if_neg (by simp [pageAddr]), wp_pure]
      exact .refl hh
  | some x =>
      obtain ⟨sp, D⟩ := x
      have hok := h sp D rfl
      have := hok.holds.root_range.lt
      rw [if_pos (by simp only [Option.map_some, pageAddr]; omega)]
      exact uvmfree_spec hok.holds hok.within hh hok.aligned hok.le

theorem SpaceOk.congr {m m' : Bytes} {sp : Space} {D : Set Nat} {sz : Nat}
    (h : SpaceOk L m sp D sz) (hs : ∀ p ∈ sp.tables, SamePage m m' p) : SpaceOk L m' sp D sz :=
  ⟨h.holds.congr hs, h.shape, h.sub, h.aligned, h.le⟩

/-- What a slot holds is there as long as the pages of its table are the same. -/
theorem SlotMem.congr {m m' : Bytes} {p : Proc} {A : Assets} (h : SlotMem L m p A)
    (hs : ∀ q ∈ tableSet A.space, SamePage m m' q) : SlotMem L m' p A :=
  { h with
    space := fun sp D hsp => (h.space sp D hsp).congr fun q hq =>
      hs q (by rw [hsp]; exact hq) }

/-- **`releaseproc` gives back what the slot holds**, and resets it. -/
theorem releaseproc_spec {A : Assets} (h : SlotMem L k.mem.bytes (k.procs i) A)
    (hh : Held k.mem A.pages) : wp (releaseproc i) (fun _ k' => Frame k.mem k'.mem A.pages ∅ ∧
      k' = { k with mem := k'.mem, procs := Function.update k.procs i (k.procs i).reset }) k := by
  have hhs : Held k.mem (spaceSet A.space) := fun p hp => hh p (.inl (.inr hp))
  unfold releaseproc
  rw [wp_bind, wp_getProc, wp_bind, wp_onMem, h.tf_eq, h.pt_eq, h.kstack_eq]
  refine (kfree_ifSet h.tf_range fun p hp => hh p (.inl (.inl hp))).mono fun _ s₁ hf₁ => ?_
  rw [wp_bind, wp_onMem]
  have h₁ : SlotMem L s₁.bytes (k.procs i) A :=
    h.congr fun p hp => hf₁.same p (hhs p (tableSet_subset _ hp))
      (h.apart.tf_space p (tableSet_subset _ hp))
  refine (uvmfree_ifSet h₁.space (hf₁.held hhs h.apart.tf_space)).mono fun _ s₂ hf₂ => ?_
  have hf₂' := hf₁.seq hf₂ fun p hp => ⟨hhs p hp, h.apart.tf_space p hp⟩
  rw [wp_bind, wp_onMem]
  have hks : Held k.mem (pageSet A.kstack) := fun p hp => hh p (.inr hp)
  refine (kfree_ifSet h.kstack_range (hf₂'.held hks h.apart.kstack)).mono fun _ s₃ hf₃ => ?_
  have hf₃' := hf₂'.seq hf₃ fun p hp => ⟨hks p hp, h.apart.kstack p hp⟩
  rw [wp_modifyProc]
  rw [Set.union_self, Set.union_self] at hf₃'
  exact ⟨hf₃', rfl⟩

/-- A slot gets another space, which may have pages of the old one. -/
theorem SlotMem.respace {p q : Proc} {A : Assets} {o : Option (Space × Set Nat)}
    (h : SlotMem L s.bytes p A) (hh : Held s A.pages)
    (hf : Frame s s' (spaceSet A.space) (spaceSet o)) (htf : q.tf = p.tf)
    (hks : q.kstack = p.kstack) (hpt : q.pt = pageAddr (o.map (·.1.root)))
    (hsp : ∀ sp D, o = some (sp, D) → SpaceOk L s'.bytes sp D q.sz) :
    SlotMem L s'.bytes q { A with space := o } ∧
      Frame s s' A.pages (Assets.pages { A with space := o }) := by
  have htd : ∀ x ∈ pageSet A.tf, x ∉ spaceSet A.space := fun x hq hm => h.apart.tf_space x hm hq
  have hkd : ∀ x ∈ pageSet A.kstack, x ∉ spaceSet A.space := fun x hq hm =>
    h.apart.kstack x hq (.inr hm)
  have ht := hf.not_mem (B := pageSet A.tf) (fun x hq => hh x (.inl (.inl hq))) htd
  have hk := hf.not_mem (B := pageSet A.kstack) (fun x hq => hh x (.inr hq)) hkd
  refine ⟨⟨htf.trans h.tf_eq, hks.trans h.kstack_eq, hpt, h.tf_range, h.kstack_range, hsp,
    fun x hq hm => ht x hm hq, fun x hq hm => ?_⟩, ?_⟩
  · rcases hm with hm | hm
    · exact h.apart.kstack x hq (.inl hm)
    · exact hk x hq hm
  · have hfr := hf.frame (B := pageSet A.tf ∪ pageSet A.kstack) fun x hq =>
      ⟨hh x (hq.imp .inl id), hq.elim (htd x) (hkd x)⟩
    have hpages : ∀ o', spaceSet o' ∪ (pageSet A.tf ∪ pageSet A.kstack) =
        Assets.pages { A with space := o' } := fun o' => by
      show _ = pageSet A.tf ∪ spaceSet o' ∪ pageSet A.kstack
      rw [← Set.union_assoc, Set.union_comm (spaceSet o')]
    rwa [hpages, hpages] at hfr

/-! ## `procalloc` -/

/-- A slot that has been given its pages. -/
def Proc.filled (L : Layout) (p : Proc) (pid : Int) (tf kstack pt : Nat) : Proc := { p with
  state := .new, pid := pid, kstack := kstack, tf := tf, pt := pt
  context := ⟨L.forkret, kstack + PAGE_SIZE⟩ }

/-- A slot with some pages, but without a space. -/
theorem slotMem_of_pages {m : Bytes} {p : Proc} {tf kstack : Option Nat} (htf : p.tf = pageAddr tf)
    (hks : p.kstack = pageAddr kstack) (hpt : p.pt = 0) (ht : ∀ x ∈ pageSet tf, InRange L x)
    (hk : ∀ x ∈ pageSet kstack, InRange L x) (hd : ∀ x ∈ pageSet kstack, x ∉ pageSet tf) :
    SlotMem L m p ⟨tf, kstack, none⟩ where
  tf_eq := htf
  kstack_eq := hks
  pt_eq := hpt
  tf_range := ht
  kstack_range := hk
  space _ _ h := by cases h
  apart := ⟨fun _ h => h.elim, fun x hx h => h.elim (hd x hx) id⟩

/-- The slot has all that `procalloc` gives it, and no user pages. -/
theorem slotMem_of_table {m : Bytes} {p : Proc} {t ks : Nat} {sp : Space} (htf : p.tf = t * 4096)
    (hks : p.kstack = ks * 4096) (hpt : p.pt = sp.root * 4096) (hsz : p.sz = 0)
    (ht : InRange L t) (hk : InRange L ks) (hne : ks ≠ t) (hh : Holds L m sp)
    (hpte : sp.pte = kernelPte L) (hd : ∀ q ∈ sp.tables, q ∉ ({ks} ∪ {t} : Set Nat)) :
    SlotMem L m p ⟨some t, some ks, some (sp, ∅)⟩ where
  tf_eq := htf
  kstack_eq := hks
  pt_eq := hpt
  tf_range := by
    rintro _ rfl
    exact ht
  kstack_range := by
    rintro _ rfl
    exact hk
  space := by
    rintro sp D he
    cases he
    rw [hsz]
    exact ⟨hh, .kernel_only hpte, Set.empty_subset _, rfl, Nat.zero_le _⟩
  apart := by
    have hsp : sp.frames ∅ = ∅ := sp.frames_empty
    refine ⟨?_, ?_⟩
    · rintro q (hq | hq) hm
      · exact hd q hq (.inr hm)
      · rw [hsp] at hq
        exact hq
    · rintro _ rfl (hm | hm | hm)
      · exact hne hm
      · exact hd _ hm (.inl rfl)
      · rw [hsp] at hm
        exact hm

/-- What `procalloc` does with slot `i`: it fills it, or it runs out of memory and leaves
everything but `curr_pid` as it was. -/
def Allocates (i : Slot) (k : Kernel L) (r : Option Slot) (k' : Kernel L) : Prop :=
  k'.currPid = succPid k.currPid ∧ k'.kptable = k.kptable ∧
    ((r = none ∧ k'.procs = k.procs ∧ Frame k.mem k'.mem ∅ ∅ ∧ Few k.mem.free 1027) ∨
      (r = some i ∧ ∃ t ks sp,
        SlotMem L k'.mem.bytes (k'.procs i) ⟨some t, some ks, some (sp, ∅)⟩ ∧
        sp.pte = kernelPte L ∧ Zeroed k'.mem.bytes t ∧
        Frame k.mem k'.mem ∅ (Assets.pages ⟨some t, some ks, some (sp, ∅)⟩) ∧
        k'.procs = Function.update k.procs i
          ((k.procs i).filled L k.currPid (t * 4096) (ks * 4096) (sp.root * 4096))))

/-- `procalloc` gives up: the slot, which holds the pages `A`, is again what it was. -/
theorem procallocFail_spec {p : Proc} {A : Assets} (h : SlotMem L s.bytes p A)
    (hr : p.reset = k.procs i) (hf : Frame k.mem s ∅ A.pages) (hfew : Few k.mem.free 1027) :
    wp (procallocFail i) (Allocates i k)
      ⟨s, Function.update k.procs i p, succPid k.currPid, k.kptable⟩ := by
  unfold procallocFail
  rw [wp_bind]
  refine (releaseproc_spec (A := A) (by simpa using h) hf.held').mono fun _ k₂ hk => ?_
  obtain ⟨hf₂, hk₂⟩ := hk
  simp only [Function.update_self, Function.update_idem, hr, Function.update_eq_self] at hk₂
  rw [wp_pure, hk₂]
  exact ⟨rfl, rfl, .inl ⟨rfl, rfl, hf.trans hf₂, hfew⟩⟩

theorem procallocAt_spec (h : (k.procs i).reset = k.procs i) :
    wp (procallocAt i) (Allocates i k) k := by
  have hsz : (k.procs i).sz = 0 := by rw [← h]; rfl
  have htf : (k.procs i).tf = 0 := by rw [← h]; rfl
  have hpt : (k.procs i).pt = 0 := by rw [← h]; rfl
  have hks : (k.procs i).kstack = 0 := by rw [← h]; rfl
  unfold procallocAt allocpid
  simp only [wp_bind, wp_modifyProc, wp_get, wp_set, wp_pure, wp_onMem]
  simp only [Kernel.setProc, Function.update_self, Function.update_idem]
  refine (kalloc_spec k.mem).mono fun pa s₁ hk₁ => ?_
  rcases hk₁ with ⟨rfl, rfl, hfull⟩ | ⟨ks, rfl, hks₁, -, hf₁⟩
  · rw [if_pos rfl]
    refine wp.mono (procallocFail_spec (A := .empty) ?_ ?_ ?_ ?_) fun _ _ => id
    · exact slotMem_of_pages htf hks hpt (fun _ => False.elim) (fun _ => False.elim)
        fun _ => False.elim
    · exact h
    · rw [Assets.pages_empty]
      exact .refl fun _ => False.elim
    · exact (Few.none hfull).mono (by omega)
  · have hksr := hks₁.inRange
    have hkl := hksr.lt
    rw [if_neg (by omega)]
    simp only [wp_bind, wp_modifyProc, wp_onMem, Kernel.setProc, Function.update_self,
      Function.update_idem]
    refine (kalloc_spec s₁).mono fun pa s₂ hk₂ => ?_
    rcases hk₂ with ⟨rfl, rfl, hfull⟩ | ⟨t, rfl, ht₂, -, hf₂⟩
    · rw [if_pos rfl]
      refine wp.mono (procallocFail_spec (A := ⟨none, some ks, none⟩) ?_ ?_ ?_ ?_) fun _ _ => id
      · exact slotMem_of_pages rfl rfl hpt (fun _ => False.elim) (by rintro _ rfl; exact hksr)
          fun _ _ => id
      · exact h
      · simpa [Assets.pages, pageSet, spaceSet] using hf₁
      · exact ((Few.none hfull).of_footprint hf₁ (G := {ks}) (by simp)).mono (by simp)
    · have htr := ht₂.inRange
      have htl := htr.lt
      have htk : ks ≠ t := by
        rintro rfl
        exact hf₁.held' ks rfl ht₂
      rw [if_neg (by omega)]
      simp only [wp_bind, wp_modifyProc, wp_onMem, wp_memset, Kernel.setProc, Function.update_self,
        Function.update_idem]
      have hf₃ := hf₂.trans (frame_fill (hf₂.held' t rfl))
      have hf₄ := hf₁.seq (B := ∅) hf₃ (fun _ => False.elim)
      rw [Set.union_empty] at hf₄
      refine (initUserpt_spec _).mono fun pa s₄ hi => ?_
      rcases hi with ⟨rfl, hf₅, hfew⟩ | ⟨sp, rfl, hne, hk, hh, hf₅⟩
      · rw [if_pos rfl]
        refine wp.mono (procallocFail_spec (A := ⟨some t, some ks, none⟩) ?_ ?_ ?_ ?_) fun _ _ => id
        · exact slotMem_of_pages rfl rfl rfl (by rintro _ rfl; exact htr)
            (by rintro _ rfl; exact hksr) (by rintro _ rfl; exact htk)
        · exact h
        · have hf₆ := hf₄.trans (hf₅.widen_self hf₄.held' (Set.empty_subset _))
          rwa [Assets.pages_some, spaceSet, Set.union_empty]
        · refine (hfew.of_footprint hf₄ (G := {ks, t}) (by simp)).mono ?_
          have : ({ks, t} : Finset Nat).card ≤ 2 := Finset.card_le_two
          omega
      · rw [if_neg hne]
        simp only [wp_bind, wp_modifyProc, wp_pure, Kernel.setProc, Function.update_self,
          Function.update_idem]
        have hd : ∀ p ∈ sp.tables, p ∉ ({ks} ∪ {t} : Set Nat) := fun p hp hm =>
          hf₅.not_mem hf₄.held' (fun _ _ => id) p hm hp
        have hf₆ := hf₄.seq (B := ∅) hf₅ fun _ => False.elim
        refine ⟨rfl, rfl, .inr ⟨rfl, t, ks, sp, ?_, hk, fun o ho => ?_, ?_, rfl⟩⟩
        · dsimp only
          rw [Function.update_self]
          exact slotMem_of_table rfl rfl rfl hsz htr hksr htk hh hk hd
        · rw [hf₅.same t (hf₃.held' t rfl) id o ho, Mem.bytes_mapBytes, Bytes.fill_apply,
            if_pos (by simp only [PAGE_SIZE]; omega)]
        · rw [Assets.pages_some, spaceSet, sp.frames_empty, Set.union_empty]
          rwa [Set.union_empty] at hf₆

end Wl00.Vm
