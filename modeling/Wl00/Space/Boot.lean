import Wl00.Space.Exec
import Wl00.Space.Exit
import Wl00.Space.Fork

/-!
# Boot, and every run of the kernel

* `initBitmap_spec` — after `init_bitmap` exactly the pages in range are free.
* `boot_spec` — boot ends in a `World`, or in one of the panics for a machine with too
  little memory or without a program that can be loaded.
* `world_step`, `world_reachable` — no operation panics, and each keeps the `World`.
-/

namespace Wl00.Vm

open Prog
open Sched (Slot ProcState)

variable {L : Layout} {k k' : Kernel L} {s s' : Mem L} {p : Slot} {kpt : Space}
  {A : Slot → Assets} {progs : Programs}

/-! ## `init_bitmap` -/

theorem kfreeRange_spec (hz : ∀ q, ¬s.free q) :
    wp (kfreeRange L.startPage MEM_END) (fun _ s' => (∀ q, s'.free q ↔ InRange L q) ∧
      ∀ q, InRange L q → Zeroed s'.bytes q) s := by
  have hup : pgRoundUp L.startPage = L.startPage := by
    have := L.startPage_eq
    simp only [pgRoundUp, PAGE_SIZE]
    omega
  obtain ⟨e, he, hdown⟩ : ∃ e, e = 0x88000000 ∧ pgRoundDown MEM_END = e := ⟨_, rfl, rfl⟩
  obtain ⟨a, ha, hin⟩ : ∃ a, a * 4096 = L.startPage ∧ ∀ q, InRange L q ↔ a ≤ q ∧ q < 0x88000 := by
    have := L.startPage_eq
    refine ⟨L.startPage / 4096, by omega, fun q => ?_⟩
    unfold InRange
    omega
  have hlt : a ≤ 0x88000 := by
    have := L.startPage_eq
    omega
  unfold kfreeRange
  rw [hup, hdown, ← ha]
  clear hup hdown ha
  -- the pages below `curr` are free and cleared
  let I : Nat → Mem L → Prop := fun curr s₁ => ∃ c, curr = c * 4096 ∧ a ≤ c ∧ c ≤ 0x88000 ∧
    (∀ q, s₁.free q ↔ a ≤ q ∧ q < c) ∧ ∀ q, a ≤ q → q < c → Zeroed s₁.bytes q
  refine wp_loop I (e - ·) ?_ ⟨a, rfl, Nat.le_refl a, hlt, fun q => ?_, fun q _ _ => by omega⟩
    (by simp only [rounds]; omega)
  · rintro _ s₁ ⟨c, rfl, hlo, hhi, hfree, hzero⟩
    by_cases hc : c < 0x88000
    · rw [if_pos (by omega), wp_bind]
      refine (kfree_spec ((hin c).2 ⟨hlo, hc⟩) fun hf => ?_).mono fun _ s₂ hk => ?_
      · have := ((hfree c).1 hf).2
        omega
      · rw [wp_pure]
        refine ⟨⟨c + 1, by simp only [PAGE_SIZE]; omega, by omega, by omega, fun q => ?_,
          fun q hq hlt => ?_⟩, by simp only [PAGE_SIZE]; omega⟩
        · rw [hk.1.free_iff, hfree]
          simp only [Set.mem_singleton_iff, Set.mem_empty_iff_false, not_false_eq_true, and_true]
          omega
        · by_cases hqc : q = c
          · rw [hqc]
            exact hk.2.1
          · exact (hzero q hq (by omega)).congr (hk.2.2 q hqc)
    · rw [if_neg (by omega), wp_pure]
      refine ⟨fun q => ?_, fun q hq => ?_⟩
      · rw [hfree, hin]
        omega
      · rw [hin] at hq
        exact hzero q hq.1 (by omega)
  · have := hz q
    simp only [this, false_iff]
    omega

/-- **After `init_bitmap` exactly the pages in range are free**, and they are cleared. -/
theorem initBitmap_spec (bytes : Bytes) :
    wp initBitmap (fun _ s' => (∀ q, s'.free q ↔ InRange L q) ∧ ∀ q, InRange L q → Zeroed s'.bytes q)
      (Mem.blank L bytes) := by
  unfold initBitmap
  rw [wp_bind, wp_modify]
  refine kfreeRange_spec fun q hq => ?_
  have hb := hq.2
  simp [Mem.blank] at hb

/-! ## The first process -/

/-- The panics of a boot that cannot succeed. -/
def BootPanic (e : Panic) : Prop :=
  e = .nullTable ∨ e = .noProc ∨ e = .loadInit ∨ e = .noStack ∨ e = .mapStack

/-- Boot fails, and it could not have succeeded: memory is short, or `init` cannot be
loaded. -/
def BootFails (progs : Programs) (free : Nat → Prop) (n : Nat) (e : Panic) : Prop :=
  BootPanic e ∧ ¬(Accepts progs.init ∧ Roomy progs.init free n)

theorem BootFails.of_few {free : Nat → Prop} {n j : Nat} {e : Panic} (he : BootPanic e)
    (h : Few free j) (hj : j ≤ n + 1030) : BootFails progs free n e :=
  ⟨he, fun hr => hr.2.stack (h.mono (by omega))⟩

theorem BootFails.of_frame {B B' : Set Nat} {G : Finset Nat} {n n' : Nat} {e : Panic}
    (h : BootFails progs s'.free n' e) (hf : Frame s s' B B') (hG : ∀ q ∈ B', q ∈ G)
    (hn : n' + G.card ≤ n) : BootFails progs s.free n e :=
  ⟨h.1, fun hr => h.2 ⟨hr.1, hr.2.of_frame hf hG hn⟩⟩

/-- What `uvmfirst` stores in the trapframe in page `t`. -/
def firstWords (m : Bytes) (t entry x ksp ksatp ktrap utrap : Nat) : Bytes :=
  (((((m.storeWord (t * 4096 + epcOff) entry).storeWord (t * 4096 + regOff 2) x).storeWord
    (t * 4096 + kSpOff) ksp).storeWord (t * 4096 + kSatpOff) ksatp).storeWord
    (t * 4096 + kTrapOff) ktrap).storeWord (t * 4096 + uTrapOff) utrap

section FirstWords

variable {m m' : Bytes} {t : Nat} (entry x ksp ksatp ktrap utrap : Nat)

theorem SamePage.firstWords (h : SamePage m m' t) :
    SamePage (firstWords m t entry x ksp ksatp ktrap utrap)
      (firstWords m' t entry x ksp ksatp ktrap utrap) t :=
  (((((h.storeWord _ _).storeWord _ _).storeWord _ _).storeWord _ _).storeWord _ _).storeWord _ _

/-- The words for the kernel are below `epc` and the registers. -/
theorem word_firstWords {o : Nat} (ho : epcOff ≤ o) :
    (firstWords m t entry x ksp ksatp ktrap utrap).word (t * 4096 + o) =
      ((m.storeWord (t * 4096 + epcOff) entry).storeWord (t * 4096 + regOff 2) x).word
        (t * 4096 + o) := by
  simp only [epcOff] at ho
  rw [firstWords, Bytes.word_storeWord_of_ne (by simp only [uTrapOff]; omega),
    Bytes.word_storeWord_of_ne (by simp only [kTrapOff]; omega),
    Bytes.word_storeWord_of_ne (by simp only [kSatpOff]; omega),
    Bytes.word_storeWord_of_ne (by simp only [kSpOff]; omega)]

theorem epc_firstWords : (firstWords m t entry x ksp ksatp ktrap utrap).word (t * 4096 + epcOff) =
    entry % 2 ^ 32 := by
  rw [word_firstWords _ _ _ _ _ _ le_rfl,
    Bytes.word_storeWord_of_ne (by simp only [epcOff, regOff]; omega), Bytes.word_storeWord_mod]

end FirstWords

/-- Slot `i` is READY with `init` in it, which has not run yet, and no other slot has
changed. -/
structure First (progs : Programs) (k k' : Kernel L) (i : Slot) : Prop where
  state : (k'.procs i).state = .ready
  sz : (k'.procs i).sz = pgRoundUp (imageEnd (segments progs.init))
  program : ∃ sp D stack, (k'.procs i).pt = sp.root * 4096 ∧
    Installed L k'.mem.bytes sp D progs.init stack
  words : ∃ t ksp, (k'.procs i).tf = t * 4096 ∧
    SamePage (firstWords (fun _ => 0) t (readElfHdr progs.init.bytes).entry USER_STACK_TOP ksp
      (makeSatp k'.kptable) L.kerneltrap L.uTrapHandle) k'.mem.bytes t
  other : ∀ j, j ≠ i → k'.procs j = k.procs j

theorem First.bytes {i : Slot} (h : First progs k k' i) {x : Nat}
    (hx : x / 4096 ∈ imageDom (segments progs.init)) :
    byteAt k'.mem.bytes (k'.procs i).pt x = imageByte progs.init.bytes (segments progs.init) x := by
  obtain ⟨sp, D, stack, hpt, hinst⟩ := h.program
  rw [hpt, hinst.byteAt hx]

theorem First.vectors {i : Slot} (h : First progs k k' i) : Vectors k' i := by
  obtain ⟨t, ksp, htf, hw⟩ := h.words
  refine ⟨?_, ?_, ?_⟩ <;> rw [htf, hw.word (by decide), firstWords]
  · rw [Bytes.word_storeWord_of_ne (by simp only [kTrapOff, uTrapOff]; omega),
      Bytes.word_storeWord_mod]
  · rw [Bytes.word_storeWord_of_ne (by simp only [kSatpOff, uTrapOff]; omega),
      Bytes.word_storeWord_of_ne (by simp only [kSatpOff, kTrapOff]; omega),
      Bytes.word_storeWord_mod]
  · rw [Bytes.word_storeWord_mod]

/-- A space without user pages has the kernel's mappings only. -/
theorem Shape.pte_eq {sp : Space} (h : Shape L sp ∅) : sp.pte = kernelPte L :=
  funext fun v => h.kernel v id

theorem findProgram_init (progs : Programs) : findProgram progs (cstr "init") = some progs.init := by
  simp [findProgram, Programs.table]

/-- The end of `uvmfirst`: the space of slot `i` is complete, and words are stored in its
trapframe. -/
theorem World.first {i : Slot} {t ks sz : Nat} {sp sp' : Space} (h : World k kpt A)
    (hA : A i = ⟨some t, some ks, some (sp, ∅)⟩)
    (hf : Frame k.mem s sp.tables (sp'.tables ∪ sp'.frames (userDom sz)))
    (hok : SpaceOk L s.bytes sp' (userDom sz) sz) (hroot : sp'.root = sp.root)
    (hlo : USER_BASE ≤ sz) (hst : Frame s s' {t} {t}) :
    ∃ A', World ({ k with mem := s' }.setProc i (·.asInit sz)) kpt A' := by
  have hm := (h.slot i).mem
  have hh := h.held i
  rw [hA] at hm hh
  have hf₁ : Frame k.mem s (spaceSet (some (sp, ∅))) (spaceSet (some (sp', userDom sz))) := by
    rw [spaceSet, sp.frames_empty, Set.union_empty]
    exact hf
  have hpt : (k.procs i).pt = sp'.root * 4096 := by
    rw [show (k.procs i).pt = sp.root * 4096 from hm.pt_eq, hroot]
  obtain ⟨hm₁, hf₁'⟩ := hm.respace (q := (k.procs i).asInit sz) (o := some (sp', userDom sz)) hh hf₁
    rfl rfl hpt (by rintro _ _ he; cases he; exact hok)
  have hm₂ := hm₁.congr fun q hq => hst.same q (hf₁'.held' q (.inl (.inr (.inl hq))))
    (hm₁.apart.tf_space q (.inl hq))
  have hslot : SlotOk L s'.bytes ((k.procs i).asInit sz)
      ⟨some t, some ks, some (sp', userDom sz)⟩ :=
    .of_live (p := (k.procs i).asInit sz) hm₂ (.inl rfl) hlo
  have hf₂ := hf₁'.trans (hst.widen_self hf₁'.held' (Set.singleton_subset_iff.2 (.inl (.inl rfl))))
  refine ⟨_, h.update (i := i) (by rw [hA]; exact hf₂) rfl ?_ fun j hj hs => ?_⟩
  · rw [Kernel.setProc_self]
    exact hslot
  · rwa [Kernel.setProc_ne hj]

/-- **`uvmfirst` fills a new slot with `init`.** -/
theorem uvmfirst_spec {i : Slot} {t ks : Nat} {sp : Space} (h : World k kpt A)
    (hA : A i = ⟨some t, some ks, some (sp, ∅)⟩) (hz : Zeroed k.mem.bytes t) :
    wpe (uvmfirst progs i USER_STACK_TOP) (fun _ k' => (∃ A', World k' kpt A') ∧ First progs k k' i)
      (BootFails progs k.mem.free 0) k := by
  have hm := (h.slot i).mem
  have hh := h.held i
  rw [hA] at hm hh
  have hok := hm.space sp ∅ rfl
  have hT : Held k.mem sp.tables := fun q hq => hh q (.inl (.inr (.inl hq)))
  unfold uvmfirst
  rw [findProgram_init]
  dsimp only
  rw [wpe_bind, wpe_getProc, wpe_bind, wpe_onMem,
    show (k.procs i).pt = sp.root * 4096 from hm.pt_eq,
    show (k.procs i).tf = t * 4096 from hm.tf_eq]
  refine (loadElf_spec progs.init hok.holds hok.shape.pte_eq hT).toWpe.mono (fun r s₁ hl => ?_)
    fun _ => id
  obtain ⟨sp₁, hs, hbuilt, hsz, hret⟩ := hl
  obtain ⟨hok₁, hlo, hdom, hst⟩ := hbuilt.spaceOk
  rw [← hsz] at hok₁ hlo hdom
  rcases hret with ⟨hret, hwhy⟩ | ⟨hret, rfl, hentry⟩
  · rw [if_pos (by omega), wpe_throw]
    refine ⟨by simp [BootPanic], fun hr => ?_⟩
    rcases hwhy with hno | ⟨j, hj, hfew⟩
    · exact hno hr.1
    · exact hr.2.segment j hj (hfew.mono (by omega))
  rw [if_neg (by omega), wpe_bind, wpe_onMem]
  refine (kalloc_spec s₁).toWpe.mono (fun stack s₂ hk => ?_) fun _ => id
  rcases hk with ⟨rfl, rfl, hfull⟩ | ⟨q, rfl, hq, -, hf₂⟩
  · rw [if_pos rfl, wpe_throw]
    exact ⟨by simp [BootPanic], fun hr => hr.2.stack ((hbuilt.few (.none hfull)).mono (by omega))⟩
  have hql := hq.inRange.lt
  rw [if_neg (by omega), wpe_bind, wpe_onMem, ← hbuilt.grows.root]
  refine (mapStack_spec hbuilt.holds hbuilt.shape hbuilt.held hst hq hf₂ (by decide)
    (by decide)).toWpe.mono (fun pte s₃ hm₃ => ?_) fun _ => id
  rcases hm₃ with ⟨rfl, rfl, hfull⟩ | ⟨hne, sp₃, hbec, hfl, hbytes, hold⟩
  · rw [if_pos rfl, wpe_throw]
    have hfew := (Few.none hfull).of_footprint hf₂ (G := {q}) (by simp)
    rw [Finset.card_singleton] at hfew
    exact ⟨by simp [BootPanic], fun hr => hr.2.stack ((hbuilt.few hfew).mono (by omega))⟩
  rw [if_neg hne]
  apply wp.toWpe
  have hinst : Installed L s₃.bytes sp₃ _ progs.init fun x => s₂.bytes (q * 4096 + x % 4096) :=
    hbuilt.installed hbec hold hfl fun x hx => by
      rw [Space.byte, hx]
      exact hbytes _ (Nat.mod_lt _ (by decide))
  rw [← hdom] at hbec hinst
  simp only [wp_bind, wp_get, wp_onMem, wp_store, wp_modifyProc]
  have hf₃ := hbuilt.frame.trans hbec.frame
  -- the trapframe is none of the pages of the space, before or after
  have htB : ∀ y ∈ ({t} : Set Nat), ¬k.mem.free y ∧ y ∉ sp.tables := by
    rintro _ rfl
    exact ⟨hh _ (.inl (.inl rfl)), fun hc => hm.apart.tf_space _ (.inl hc) rfl⟩
  have ht₃ : ¬s₃.free t := hf₃.held (fun y hy => (htB y hy).1) (fun y hy => (htB y hy).2) t rfl
  have ht : t ∉ sp₃.tables ∪ sp₃.frames (userDom r.sz) :=
    hf₃.not_mem (fun y hy => (htB y hy).1) (fun y hy => (htB y hy).2) t rfl
  have hz₃ : SamePage (fun _ => 0) s₃.bytes t := hz.congr (hf₃.same t (htB t rfl).1 (htB t rfl).2)
  have hst₃ := frame_stores [(epcOff, r.entry), (regOff 2, USER_STACK_TOP),
    (kSpOff, (k.procs i).kstack + PAGE_SIZE), (kSatpOff, makeSatp k.kptable),
    (kTrapOff, L.kerneltrap), (uTrapOff, L.uTrapHandle)]
    (by simp [regOff, epcOff, kSpOff, kSatpOff, kTrapOff, uTrapOff]) ht₃
  simp only [List.foldl_cons, List.foldl_nil] at hst₃
  refine ⟨h.first hA hf₃ ⟨hbec.holds, hbec.shape, subset_rfl, hok₁.aligned, hok₁.le⟩
    (hbec.grows.root.trans hbuilt.grows.root) hlo hst₃, ?_, ?_, ?_, ?_, fun j hj => ?_⟩
  · rw [Kernel.setProc_self]
    rfl
  · rw [Kernel.setProc_self]
    exact hsz
  · have hpt : (k.procs i).pt = sp₃.root * 4096 := by
      rw [hbec.grows.root, hbuilt.grows.root]
      exact hm.pt_eq
    refine ⟨sp₃, _, _, ?_, hinst.congr fun y hy => hst₃.same y (hf₃.held' y hy) fun hyt =>
      ht (Set.mem_singleton_iff.1 hyt ▸ hy)⟩
    rw [Kernel.setProc_self]
    exact hpt
  · refine ⟨t, (k.procs i).kstack + PAGE_SIZE, ?_, ?_⟩
    · rw [Kernel.setProc_self]
      exact hm.tf_eq
    · rw [← hentry]
      exact hz₃.firstWords _ _ _ _ _ _
  · rw [Kernel.setProc_ne hj]

/-- The first slot that is filled after a boot that has left memory free. -/
theorem World.initUserproc (h : World k kpt A) (hall : ∀ i, (k.procs i).state = .unused) :
    wpe (Vm.initUserproc progs) (fun _ k' => (∃ A', World k' kpt A') ∧ ∃ i, First progs k k' i)
      (BootFails progs k.mem.free 1027) k := by
  unfold Vm.initUserproc
  rw [wpe_bind]
  refine (procalloc_spec h.reset).toWpe.mono (fun r k₁ hk => ?_) fun _ => id
  rcases hk with ⟨-, -, hno⟩ | ⟨i, hi, -, hkp, ⟨rfl, -, -, hfew⟩ |
    ⟨rfl, t, ks, sp, hm, -, hz, hf, hp⟩⟩
  · exact absurd (hall 0) (hno 0)
  · rw [wpe_throw]
    exact .of_few (by simp [BootPanic]) hfew (by omega)
  · refine (uvmfirst_spec (h.allocated hi hkp hm hf hp) (Function.update_self ..) hz).mono
      (fun _ k₂ hk => ⟨hk.1, i, hk.2.state, hk.2.sz, hk.2.program, hk.2.words,
        fun j hj => ?_⟩) fun e he => ?_
    · rw [hk.2.other j hj, hp, Function.update_of_ne hj]
    · obtain ⟨G, hG, hmem⟩ := hm.pages_card (E := ∅) (Set.empty_subset _)
      exact he.of_frame hf hmem (by rw [Finset.card_empty] at hG; omega)

/-- Without free memory there is no first process. -/
theorem initUserproc_full (hr : ∀ i, (k.procs i).reset = k.procs i) (hfull : ∀ q, ¬k.mem.free q)
    (Q : Unit → Kernel L → Prop) : wpe (initUserproc progs) Q (· = .noProc) k := by
  unfold initUserproc
  rw [wpe_bind]
  refine (procalloc_spec fun i _ => hr i).toWpe.mono (fun r k₁ hk => ?_) fun _ => id
  rcases hk with ⟨rfl, -, -⟩ | ⟨i, hi, -, hkp, ⟨rfl, -, -, -⟩ | ⟨rfl, t, ks, sp, hm, -, -, hf, hp⟩⟩
  · rw [wpe_throw]
  · rw [wpe_throw]
  · rcases hf.fresh t (.inl (.inl rfl)) with hc | hc
    · exact hc.elim
    · exact absurd hc (hfull t)

theorem Proc.reset_zero : Proc.zero.reset = Proc.zero := by
  simp [Proc.reset, Proc.zero]

/-- The table of the kernel is the first to take pages. -/
theorem partition_kpt (h : Holds L s'.bytes kpt) (hfree : ∀ q, s.free q ↔ InRange L q)
    (hf : Frame s s' ∅ kpt.tables) :
    Divided s'.free (InRange L) (owner kpt fun _ => .empty) := by
  have hnone : ∀ i q, q ∈ owner kpt (fun _ => .empty) i → i = none ∧ q ∈ kpt.tables := by
    intro i q hq
    cases i with
    | none => exact ⟨rfl, hq⟩
    | some i =>
        rw [owner, Assets.pages_empty] at hq
        exact hq.elim
  refine ⟨fun q hq => hq.inRange, fun i q hq => ?_, fun i j q hi hj => ?_, fun q hr hq => ?_⟩
  · have hq' := (hnone i q hq).2
    exact ⟨h.in_range q hq', hf.held' q hq'⟩
  · rw [(hnone i q hi).1, (hnone j q hj).1]
  · refine ⟨none, ?_⟩
    by_contra hn
    exact hq ((hf.free_iff q).2 ⟨.inl ((hfree q).2 hr), hn⟩)

/-- **Boot ends in a world** with one process, or in a panic, if it cannot succeed. -/
theorem boot_spec (progs : Programs) (bytes : Bytes) :
    wpe (boot progs) (fun _ k => (∃ kpt A, World k kpt A) ∧
      ∃ i, First progs (.start L bytes) k i)
      (BootFails progs (InRange L) 2052) (.start L bytes) := by
  unfold boot
  rw [wpe_bind, wpe_onMem]
  refine (initBitmap_spec bytes).toWpe.mono (fun _ s₀ h₀ => ?_) fun _ => id
  have hfree := h₀.1
  rw [wpe_bind, wpe_onMem]
  have hall : InRange L = s₀.free := funext fun q => propext (hfree q).symm
  rw [hall]
  refine (kptableMake_spec s₀).mono (fun pa s₁ hk => ?_) fun e he =>
    .of_few (.inl he.1) (.none he.2) (by omega)
  obtain ⟨kpt, rfl, hh, hf, hpte⟩ := hk
  obtain ⟨G, hG, hmem⟩ := hh.tables_card
  rw [wpe_bind, wpe_modify, wpe_bind, wpe_modify]
  rcases hpte with hpte | hfull
  · have hzero : SlotOk L s₁.bytes .zero .empty := by
      rw [← Proc.reset_zero]
      exact .of_reset _ _
    have hw : World (⟨s₁, fun _ => .zero, 1, kpt.root * 4096⟩ : Kernel L) kpt fun _ => .empty :=
      ⟨rfl, hh, hpte, fun _ => hzero, partition_kpt hh hfree hf⟩
    refine (hw.initUserproc fun _ => rfl).mono (fun _ k hk => ⟨⟨kpt, hk.1⟩, ?_⟩) fun e he =>
      he.of_frame hf hmem (by omega)
    obtain ⟨i, hi⟩ := hk.2
    exact ⟨i, hi.state, hi.sz, hi.program, hi.words, hi.other⟩
  · refine (initUserproc_full (fun _ => Proc.reset_zero) hfull _).mono (fun _ _ => id) fun e he => ?_
    exact .of_few (.inr (.inl he)) ((Few.none hfull).of_footprint hf hmem) (by omega)

/-! ## Every run -/

/-- The registers are in the trapframe in page `t`, and nothing else has changed. -/
theorem saveRegs_spec {t : Nat} (ht : ¬s.free t) (regs : Nat → Nat) {n : Nat} (hn : n ≤ 31) :
    wp (saveRegs (t * 4096) regs n) (fun _ s' => Frame s s' {t} {t} ∧
      ∀ i, 1 ≤ i → i ≤ n → regs i < 2 ^ 32 → s'.bytes.word (t * 4096 + regOff i) = regs i) s := by
  induction n with
  | zero =>
      rw [saveRegs, wp_pure]
      exact ⟨.refl (by rintro _ rfl; exact ht), fun i h1 h2 => by omega⟩
  | succ n ih =>
      rw [saveRegs, wp_bind]
      refine (ih (by omega)).mono fun _ s₁ hs => ?_
      obtain ⟨hf, hw⟩ := hs
      rw [wp_store]
      refine ⟨hf.trans (frame_store (hf.held' t rfl) (by simp only [regOff]; omega)),
        fun i h1 h2 hi => ?_⟩
      rw [Mem.bytes_mapBytes]
      by_cases hin : i = n + 1
      · subst hin
        exact Bytes.word_storeWord hi
      · rw [Bytes.word_storeWord_of_ne (by simp only [regOff]; omega)]
        exact hw i h1 (by omega) hi

/-- The process in slot `p` works on the page of its trapframe. -/
theorem World.touch_tf (h : World k kpt A) {t ks : Nat} {o : Option (Space × Set Nat)}
    (hA : A p = ⟨some t, some ks, o⟩) (hf : Frame k.mem s {t} {t}) :
    World { k with mem := s } kpt A := by
  have hm := (h.slot p).mem
  rw [hA] at hm
  refine h.touch (i := p) ?_ ?_ hf
  · rw [hA]
    exact fun x hx => .inl (.inl hx)
  · rw [hA]
    exact fun q hq => hm.apart.tf_space q (tableSet_subset _ hq)

theorem World.tf_le (h : World k kpt A) (hl : (k.procs p).Live) :
    (k.procs p).tf + 4096 ≤ 2 ^ 32 := by
  obtain ⟨t, ks, sp, hA, -, htf, -, -⟩ := h.space hl
  have hlt := ((h.slot p).mem.tf_range t (by rw [hA]; rfl)).lt
  omega

/-- The page of the trapframe has changed, which is nobody else's. -/
theorem World.tf_map (h : World k kpt A) (hl : (k.procs p).Live) {f : Bytes → Bytes}
    (hf : ∀ a, a < (k.procs p).tf ∨ (k.procs p).tf + 4096 ≤ a →
      f k.mem.bytes a = k.mem.bytes a) :
    World { k with mem := k.mem.mapBytes f } kpt A ∧
      ∀ q, q ≠ p → Spares k { k with mem := k.mem.mapBytes f } q := by
  obtain ⟨t, ks, sp, hA, -, htf, -, -⟩ := h.space hl
  have ht : t ∈ (A p).pages := by
    rw [hA]
    exact .inl (.inl rfl)
  have hfr : Frame k.mem (k.mem.mapBytes f) {t} {t} :=
    frame_mapBytes (h.held p t ht) fun x hx => hf x (by omega)
  refine ⟨h.touch_tf hA hfr, fun q hq => ?_⟩
  exact h.spares_other (hfr.widen_self (h.held p) (Set.singleton_subset_iff.2 ht)) hq rfl rfl

theorem World.trap (h : World k kpt A) (hl : (k.procs p).Live) (epc : Nat) (regs : Nat → Nat) :
    wp (do
      let pp ← getProc p
      onMem (store (pp.tf + epcOff) epc)
      onMem (saveRegs pp.tf regs 31)) (fun _ k' => World k' kpt A ∧ k'.procs = k.procs ∧
        (∀ i, 1 ≤ i → i ≤ 31 → regs i < 2 ^ 32 →
          k'.mem.bytes.word ((k.procs p).tf + regOff i) = regs i) ∧
        ∀ q, ¬k.mem.free q → q * 4096 ≠ (k.procs p).tf → SamePage k.mem.bytes k'.mem.bytes q) k := by
  obtain ⟨t, ks, sp, hA, -, htf, -, -⟩ := h.space hl
  have ht : ¬k.mem.free t := h.held p t (by rw [hA]; exact .inl (.inl rfl))
  rw [wp_bind, wp_getProc, wp_bind, wp_onMem, wp_store, wp_onMem, htf]
  have hf := frame_store (w := epc) (j := epcOff) ht (by decide)
  refine (saveRegs_spec (hf.held' t rfl) regs (by decide)).mono fun _ s₁ hs =>
    ⟨h.touch_tf hA (hf.trans hs.1), rfl, hs.2, fun q hq hne => ?_⟩
  refine (hf.trans hs.1).same q hq fun hqt => hne ?_
  rw [Set.mem_singleton_iff.1 hqt]

theorem World.poke (h : World k kpt A) (hl : (k.procs p).Live) (va : UInt32) (b : UInt8) :
    wp (Vm.poke (k.procs p).pt va.toNat b) (fun _ s =>
      World { k with mem := s } kpt A ∧ ∀ q, Spares k { k with mem := s } q) k.mem := by
  obtain ⟨t, ks, sp, hA, -, -, hpt, hok⟩ := h.space hl
  unfold Vm.poke
  rw [wp_bind, hpt]
  refine (findUserPa_spec hok.holds va.toNat_lt).mono fun pa s₁ hp => ?_
  obtain ⟨rfl, rfl⟩ := hp
  split_ifs with hz
  · rw [wp_pure]
    exact ⟨h, fun q => .refl k q⟩
  · rw [wp_memmoveFrom]
    refine h.touch_user hA (poke_frame hok.shape (fun q hq => ?_) hz (by simp))
    exact h.held p q (by rw [hA]; exact .inl (.inr (.inr hq)))

/-- **No operation panics, and each keeps the world.** -/
theorem world_step (h : World k kpt A) {op : Op} (hop : op.enabled k) :
    wp (op.run progs) (fun _ k' => ∃ A', World k' kpt A') k := by
  cases op with
  | procalloc =>
      rw [Op.run, wp_bind]
      exact h.procalloc.mono fun _ k' hk => by rwa [wp_pure]
  | fork p =>
      rw [Op.run, wp_bind]
      exact (h.fork (.inr (.inl hop))).mono fun _ k' hk => by rw [wp_pure]; exact hk.1
  | exec p =>
      rw [Op.run, wp_bind]
      exact (h.sysExec (.inr (.inl hop))).mono fun _ k' hk => by rw [wp_pure]; exact hk.1
  | exit p status => exact (h.kexit hop status).mono fun _ k' hk => hk.1
  | wait p addr =>
      rw [Op.run, wp_bind]
      exact (h.wait hop addr).mono fun _ k' hk => by rw [wp_pure]; exact hk.1
  | reap q => exact (h.releaseproc q).mono fun _ k' hk => ⟨_, hk.2.1⟩
  | dispatch p =>
      have hl : (k.procs p).Live := .inl hop
      rw [Op.run, wp_modifyProc]
      exact ⟨A, h.setProc fun hs => hs.fields hl.ne_unused (.inr ⟨hl, .inr (.inl rfl)⟩) rfl rfl rfl rfl⟩
  | yield p =>
      have hl : (k.procs p).Live := .inr (.inl hop)
      rw [Op.run, wp_modifyProc]
      exact ⟨A, h.setProc fun hs => hs.fields hl.ne_unused (.inr ⟨hl, .inl rfl⟩) rfl rfl rfl rfl⟩
  | sleep p =>
      have hl : (k.procs p).Live := .inr (.inl hop)
      rw [Op.run, wp_modifyProc]
      exact ⟨A, h.setProc fun hs => hs.fields hl.ne_unused (.inr ⟨hl, .inr (.inr rfl)⟩) rfl rfl rfl rfl⟩
  | tick => exact (h.wakeup _).mono fun _ k' hk => ⟨A, hk.1⟩
  | trap p epc regs => exact (h.trap (.inr (.inl hop)) epc regs).mono fun _ k' hk => ⟨A, hk.1⟩
  | poke p va b =>
      rw [Op.run, wp_bind, wp_getProc, wp_onMem]
      exact (h.poke (.inr (.inl hop)) va b).mono fun _ s hs => ⟨A, hs.1⟩

/-- **The invariant holds in every reachable state.** -/
theorem world_reachable (hr : (system L progs).Reachable k) : ∃ kpt A, World k kpt A := by
  refine hr.invariant (I := fun k => ∃ kpt A, World k kpt A) ?_ ?_
  · rintro k ⟨bytes, hb⟩
    rcases wpe_iff.1 (boot_spec (L := L) progs bytes) with ⟨_, k', he, hw⟩ | ⟨e, he, -⟩
    · rw [hb] at he
      cases he
      exact hw.1
    · rw [hb] at he
      cases he
  · rintro k op k' - ⟨kpt, A, h⟩ ⟨hop, hrun⟩
    exact ⟨kpt, (world_step h hop).of_run hrun⟩

/-! ## A machine that boots -/

def tinyPrograms : Programs := ⟨tinyImage, tinyImage, tinyImage⟩

theorem not_few_tiny {n : Nat} (hn : n ≤ 20000) : ¬Few (InRange tinyLayout) n := by
  rintro ⟨F, hF, hmem⟩
  exact not_few_fresh ⟨F, hF.trans hn, fun q hq => hmem q hq.inRange⟩

theorem imageEnd_tiny : imageEnd (segments tinyImage) = 0x1008 := by
  rw [show segments tinyImage = [phdr tinyImage 0] from rfl]
  decide

/-- The small machine has room for an image with one header that ends there. -/
theorem roomy_of_one {img : Image} (hnum : (readElfHdr img.bytes).phnum = 1)
    (hfin : (phdr img 0).fin = 0x1008) (hend : imageEnd (segments img) = 0x1008) :
    Roomy img (InRange tinyLayout) 2052 := by
  refine ⟨fun j hj => ?_, ?_⟩
  · obtain rfl : j = 0 := by omega
    rw [hfin]
    exact not_few_tiny (by decide)
  · rw [hend]
    exact not_few_tiny (by decide)

theorem roomy_tiny : Roomy tinyImage (InRange tinyLayout) 2052 :=
  roomy_of_one (by decide) (by decide) imageEnd_tiny

/-- A machine with room for `init` boots and runs it, and there is no other process. -/
theorem init_runs (progs : Programs) (ha : Accepts progs.init)
    (hroom : Roomy progs.init (InRange L) 2052) : ∃ (k : Kernel L) (p : Slot),
      (system L progs).Reachable k ∧ (k.procs p).state = .running ∧
      (k.procs p).sz = pgRoundUp (imageEnd (segments progs.init)) ∧
      (∀ x, x / 4096 ∈ imageDom (segments progs.init) → byteAt k.mem.bytes (k.procs p).pt x =
        imageByte progs.init.bytes (segments progs.init) x) ∧
      ∀ j, j ≠ p → (k.procs j).state = .unused := by
  rcases wpe_iff.1 (boot_spec (L := L) progs fun _ => 0) with
    ⟨_, k, hrun, -, i, hi⟩ | ⟨e, -, -, hno⟩
  · have hboot : (system L progs).Reachable k := .start ⟨_, hrun⟩
    refine ⟨k.setProc i fun pp => { pp with state := .running, chan := none }, i,
      hboot.next (a := .dispatch i) ⟨hi.state, rfl⟩, ?_, ?_, ?_, fun j hj => ?_⟩
    · rw [Kernel.setProc_self]
    · rw [Kernel.setProc_self, hi.sz]
    · rw [Kernel.setProc_self]
      exact fun _ => hi.bytes
    · rw [Kernel.setProc_ne hj, hi.other j hj]
      rfl
  · exact absurd ⟨ha, hroom⟩ hno

/-- The small machine does. -/
theorem tiny_runs : ∃ (k : Kernel tinyLayout) (p : Slot),
    (system tinyLayout tinyPrograms).Reachable k ∧ (k.procs p).state = .running ∧
      (k.procs p).sz = 0x2000 ∧ ∀ j, j ≠ p → (k.procs j).state = .unused := by
  have hinit : tinyPrograms.init = tinyImage := rfl
  obtain ⟨k, p, hr, hp, hsz, -, halone⟩ :=
    init_runs tinyPrograms tinyImage_accepts roomy_tiny
  rw [hinit, imageEnd_tiny] at hsz
  exact ⟨k, p, hr, hp, hsz, halone⟩

end Wl00.Vm
