import Wl00.Space.Load

/-!
# Copying a user space

`uvmcopy` copies the image and the stack of one user space into a new one, a page at a
time.

* `move_apply` — `memmove` copies, whether the ranges overlap or not.
* `copyPage_spec` — one page more, or the memory is full.
* `uvmcopy_spec` — the copy has the same pages, flags and bytes, or is a part of them.
-/

namespace Wl00.Vm

open Prog

variable {L : Layout} {s s₁ s' : Mem L} {sp sp₁ sp' : Space} {D : Set Nat} {a k : Nat}
  {f : Nat → Nat} {c : Nat → Nat → UInt8}

/-! ## `memmove` -/

theorem copyUp_apply {m : Bytes} {d a n : Nat} (h : d ≤ a ∨ a + n ≤ d) (x : Nat) :
    copyUp m d a n x = if d ≤ x ∧ x < d + n then m (a + (x - d)) else m x := by
  induction n generalizing m d a with
  | zero => rw [copyUp, if_neg (by omega)]
  | succ n ih =>
      rw [copyUp, ih (by omega)]
      by_cases hx : x = d
      · subst hx
        rw [if_neg (by omega), if_pos (by omega), Function.update_self, Nat.sub_self, Nat.add_zero]
      · by_cases hin : d ≤ x ∧ x < d + (n + 1)
        · rw [if_pos (by omega), if_pos hin, Function.update_of_ne (by omega)]
          congr 1
          omega
        · rw [if_neg (by omega), if_neg hin, Function.update_of_ne hx]

theorem copyDown_apply {m : Bytes} {d a n : Nat} (h : a ≤ d) (x : Nat) :
    copyDown m d a n x = if d ≤ x ∧ x < d + n then m (a + (x - d)) else m x := by
  induction n generalizing m with
  | zero => rw [copyDown, if_neg (by omega)]
  | succ n ih =>
      rw [copyDown, ih]
      by_cases hx : x = d + n
      · subst hx
        rw [if_neg (by omega), if_pos (by omega), Function.update_self, Nat.add_sub_cancel_left]
      · by_cases hin : d ≤ x ∧ x < d + (n + 1)
        · rw [if_pos (by omega), if_pos hin, Function.update_of_ne (by omega)]
        · rw [if_neg (by omega), if_neg hin, Function.update_of_ne hx]

/-- **`memmove` copies** `n` bytes from `a` to `d`. -/
theorem move_apply (m : Bytes) (d a n x : Nat) :
    move m d a n x = if d ≤ x ∧ x < d + n then m (a + (x - d)) else m x := by
  unfold move
  split_ifs with h0 hov hin hin hin
  · omega
  · rfl
  · rw [copyDown_apply (by omega), if_pos hin]
  · rw [copyDown_apply (by omega), if_neg hin]
  · rw [copyUp_apply (by omega), if_pos hin]
  · rw [copyUp_apply (by omega), if_neg hin]

/-! ## One page -/

/-- One page of `uvmcopy`: virtual page `a + k` is mapped to a copy of page `p`, or the
memory is full. -/
theorem copyPage_spec {w p : Nat} (h : Filled s s₁ sp sp₁ a k f c) (hv : a + k < 2 ^ 20)
    (hz : sp₁.pte (a + k) % 2 = 0) (hw : pte2pa w = p * 4096) (hp : ¬s₁.free p)
    (hfl : pteFlags w = f (a + k)) (hc : ∀ o < 4096, s₁.bytes (p * 4096 + o) = c (a + k) o) :
    wp (copyPage (sp.root * 4096) ((a + k) * 4096) w) (fun r s' =>
      (r = 0 ∧ ∃ sp', Filled s s' sp sp' a (k + 1) f c) ∨
        (r = -1 ∧ Few s₁.free 1 ∧ ∃ sp', Filled s s' sp sp' a k f c)) s₁ := by
  have hf : f (a + k) < 1024 := by
    rw [← hfl, pteFlags_eq]
    omega
  unfold copyPage
  rw [wp_bind]
  refine (kalloc_spec s₁).mono fun mem s₂ hm => ?_
  rcases hm with ⟨rfl, rfl, hfull⟩ | ⟨q, rfl, hq, hbytes, hf₂⟩
  · rw [if_pos rfl, wp_pure]
    exact .inr ⟨rfl, (Few.none hfull).mono (by omega), sp₁, h⟩
  · have hql := hq.inRange.lt
    have hqp : q ≠ p := fun he => hp (he ▸ hq)
    rw [if_neg (by omega), wp_bind, wp_memmove, wp_bind, hw, hfl]
    have hq₂ : ¬s₂.free q := hf₂.held' q rfl
    have hf₃ : Frame s₁ (s₂.mapBytes (move · (q * 4096) (p * 4096) PAGE_SIZE)) ∅ {q} := by
      refine hf₂.trans (frame_mapBytes hq₂ fun x hx => ?_)
      rw [move_apply, if_neg (by simp only [PAGE_SIZE]; omega)]
    have hc₃ : ∀ o < 4096, (s₂.mapBytes (move · (q * 4096) (p * 4096) PAGE_SIZE)).bytes
        (q * 4096 + o) = c (a + k) o := by
      intro o ho
      rw [Mem.bytes_mapBytes, move_apply, if_pos (by simp only [PAGE_SIZE]; omega),
        Nat.add_sub_cancel_left, hbytes, hc o ho]
    have hT : Held s₁ sp₁.tables := fun p hp => h.frame.held' p (.inl hp)
    have h₃ := h.holds.frame hf₃ hT fun _ _ => id
    rw [← h.grows.root]
    refine wp.mono (mappage_spec h₃ (hf₃.held hT fun _ _ => id) hv (by omega) hf hz)
      fun r s₄ hr => ?_
    rcases hr with ⟨rfl, rfl, hfull⟩ | ⟨hne, sp₂, hg, hpte, h₄, hf₄⟩
    · rw [if_pos rfl, wp_bind]
      refine (kfree_spec hq.inRange (hf₃.held' q rfl)).mono fun _ s₅ hk => ?_
      have hfew := (Few.none hfull).of_footprint hf₃ (G := {q}) (by simp)
      rw [wp_pure]
      exact .inr ⟨rfl, hfew.mono (by simp), sp₁, h.frame_free (hf₃.trans hk.1)⟩
    · rw [if_neg hne, wp_pure]
      exact .inl ⟨rfl, sp₂, h.succ hf hq hf₃ hc₃ hg hpte h₄ hf₄⟩

/-! ## The whole space -/

/-- The user pages of a process of size `sz`: its image and its stack. -/
def userDom (sz : Nat) : Set Nat := imagePages sz ∪ {stackPage}

/-- `sp'` maps the pages `D` with the flags that `sp` has, to pages with the same bytes. -/
def Copies (s s' : Mem L) (sp sp' : Space) (D : Set Nat) : Prop :=
  ∀ v ∈ D, sp'.pte v % 1024 = sp.pte v % 1024 ∧
    ∀ o < 4096, s'.bytes (sp'.page v * 4096 + o) = s.bytes (sp.page v * 4096 + o)

theorem Copies.congr {s₀ s₂ : Mem L} (h : Copies s s' sp sp' D)
    (hs : ∀ v ∈ D, SamePage s₀.bytes s.bytes (sp.page v))
    (hs' : ∀ v ∈ D, SamePage s'.bytes s₂.bytes (sp'.page v)) : Copies s₀ s₂ sp sp' D := by
  intro v hv
  refine ⟨(h v hv).1, fun o ho => ?_⟩
  rw [hs' v hv o ho, (h v hv).2 o ho, hs v hv o ho]

theorem or_one_of_odd {x : Nat} (h : x % 2 = 1) : x ||| 1 = x := by
  apply Nat.eq_of_testBit_eq
  intro i
  rw [Nat.testBit_or]
  cases i with
  | zero => simp [h]
  | succ i => simp [Nat.testBit_succ]

theorem loadEntry_spec (h : Holds L s.bytes sp) (v : Nat) :
    wp (loadEntry (sp.entry v)) (fun w s' => w = sp.pte v ∧ s' = s) s := by
  unfold loadEntry
  by_cases he : sp.entry v = 0
  · rw [if_pos he, wp_pure, h.no_table v (h.entry_eq_zero.1 he)]
    exact ⟨rfl, rfl⟩
  · obtain ⟨t, ht, heq⟩ := Space.entry_ne he
    rw [if_neg he, wp_load, heq, h.leaf ht]
    exact ⟨rfl, rfl⟩

theorem Filled.copies (h : Filled s s' sp₁ sp' a k (fun v => sp.pte v % 1024)
      fun v o => s.bytes (sp.page v * 4096 + o))
    (hv : ∀ v ∈ Set.Ico a (a + k), sp.pte v % 2 = 1) : Copies s s' sp sp' (Set.Ico a (a + k)) := by
  intro v hm
  refine ⟨?_, h.bytes v hm⟩
  have := hv v hm
  rw [h.flags v hm, or_one_of_odd (by omega)]

/-- The loop of `uvmcopy` copies the image, or a part of it until the memory is full. -/
theorem uvmcopyLoop_spec {sz n : Nat} (h : Holds L s.bytes sp) (hs : Shape L sp D)
    (hh : Held s (sp.tables ∪ sp.frames D)) (hsz : sz = (1 + n) * 4096) (hn : n < 0x10000)
    (hD : Set.Ico 1 (1 + n) ⊆ D) (h' : Holds L s.bytes sp') (hk' : sp'.pte = kernelPte L)
    (hh' : Held s sp'.tables) (hd : ∀ p ∈ sp.tables ∪ sp.frames D, p ∉ sp'.tables) :
    wp (uvmcopyLoop (sp.root * 4096) (sp'.root * 4096) sz USER_BASE) (fun r s₁ =>
      ∃ k sp₁, Filled s s₁ sp' sp₁ 1 k (fun v => sp.pte v % 1024)
        (fun v o => s.bytes (sp.page v * 4096 + o)) ∧ k ≤ n ∧
        ((r = 0 ∧ k = n) ∨ (r = -1 ∧ Few s.free (1026 + n)))) s := by
  unfold uvmcopyLoop
  let I : Nat → Mem L → Prop := fun va s₁ => ∃ k sp₁, k ≤ n ∧ va = (1 + k) * 4096 ∧
    Filled s s₁ sp' sp₁ 1 k (fun v => sp.pte v % 1024) fun v o => s.bytes (sp.page v * 4096 + o)
  refine wp_loop I (fun va => (1 + n) * 4096 - va) ?_
    ⟨0, sp', by omega, rfl, .refl h' hh' 1 _ _⟩ (by simp only [rounds]; omega)
  rintro va s₁ ⟨k, sp₁, hk, rfl, hfill⟩
  by_cases hkn : k < n
  · have hmem : 1 + k ∈ D := hD ⟨by omega, by omega⟩
    have hvalid := hs.owns.valid _ hmem
    -- the pages of the space that is copied are nobody's but its own
    have h₁ := h.frame hfill.frame (fun p hp => hh p (.inl hp)) fun p hp => hd p (.inl hp)
    have hheld := hfill.frame.held hh hd
    have hpage : sp.page (1 + k) ∈ sp.tables ∪ sp.frames D := .inr ⟨_, hmem, rfl⟩
    have hsame := hfill.frame.same _ (hh _ hpage) (hd _ hpage)
    rw [if_pos (by omega), wp_bind]
    refine (findPte_spec h₁ (by omega)).mono fun pte s₂ hp => ?_
    obtain ⟨rfl, rfl⟩ := hp
    rw [wp_bind, Nat.mul_div_cancel _ (by decide)]
    refine (loadEntry_spec h₁ (1 + k)).mono fun w s₃ hw => ?_
    obtain ⟨rfl, rfl⟩ := hw
    have hz : sp₁.pte (1 + k) % 2 = 0 := by
      rw [hfill.other _ fun hm => Nat.lt_irrefl _ hm.2, hk', kernelPte_low (.inl (by omega))]
    rw [if_neg (by rw [PTE_V, Nat.and_one_is_mod]; omega), wp_bind]
    refine (copyPage_spec hfill (by omega) hz (hs.owns.pte2pa hmem) (hheld _ hpage)
      (pteFlags_eq _) hsame).mono fun r s₄ hr => ?_
    rcases hr with ⟨rfl, sp₂, hfill₂⟩ | ⟨rfl, hfew, sp₂, hfill₂⟩
    · rw [if_neg (by decide), wp_pure,
        show ((1 + k) * 4096 + PAGE_SIZE) % 2 ^ 32 = (1 + (k + 1)) * 4096 by
          simp only [PAGE_SIZE]; omega]
      exact ⟨⟨k + 1, sp₂, hkn, rfl, hfill₂⟩, by omega⟩
    · rw [if_pos (by decide), wp_pure]
      exact ⟨k, sp₂, hfill₂, hk, .inr ⟨rfl, (hfill.few hfew).mono (by omega)⟩⟩
  · obtain rfl : k = n := by omega
    rw [if_neg (by omega), wp_pure]
    exact ⟨k, sp₁, hfill, hk, .inl ⟨rfl, rfl⟩⟩

/-- What `uvmcopy` has made of the new space `sp'`: `sp₁`, which maps the pages `D₁`. -/
structure CopyOf (s s₁ : Mem L) (sp' sp₁ : Space) (D₁ : Set Nat) : Prop where
  grows : sp'.Grows sp₁
  holds : Holds L s₁.bytes sp₁
  shape : Shape L sp₁ D₁
  frame : Frame s s₁ sp'.tables (sp₁.tables ∪ sp₁.frames D₁)

/-- A part of the image has been copied into a new space. -/
theorem Filled.copyOf {n : Nat} (hs : Shape L sp D) (hD : Set.Ico 1 (1 + k) ⊆ D)
    (hn : k ≤ n) (hlt : n < 0x10000) (hk' : sp'.pte = kernelPte L) (hh' : Held s sp'.tables)
    (hf : Filled s s₁ sp' sp₁ 1 k (fun v => sp.pte v % 1024)
      fun v o => s.bytes (sp.page v * 4096 + o)) : CopyOf s s₁ sp' sp₁ (Set.Ico 1 (1 + k)) := by
  have hold : Held s (sp'.tables ∪ sp'.frames ∅) := by
    rwa [sp'.frames_empty, Set.union_empty]
  obtain ⟨hsh, hfr, -⟩ := (Shape.kernel_only hk').filled hold hf
    (fun v hv => .inl ⟨hv.1, by have := hv.2; omega⟩) (fun v hv => hv.elim) (fun v hv => by
      have h1 := hs.owns.valid v (hD hv)
      have h2 := hs.flags v (hD hv)
      rw [or_one_of_odd (by omega)]
      omega)
  rw [Set.empty_union] at hsh hfr
  rw [sp'.frames_empty, Set.union_empty] at hfr
  exact ⟨hf.grows, hf.holds, hsh, hfr⟩

theorem Ico_stack : Set.Ico stackPage (stackPage + 1) = {stackPage} := by
  ext v
  simp only [Set.mem_Ico, Set.mem_singleton_iff]
  omega

/-- **`uvmcopy` copies the user pages**, or a part of them until the memory is full. -/
theorem uvmcopy_spec {sz : Nat} (h : Holds L s.bytes sp) (hs : Shape L sp (userDom sz))
    (hh : Held s (sp.tables ∪ sp.frames (userDom sz))) (ha : sz % 4096 = 0)
    (hlo : USER_BASE ≤ sz) (hhi : sz ≤ UART_0) (h' : Holds L s.bytes sp')
    (hk' : sp'.pte = kernelPte L) (hh' : Held s sp'.tables)
    (hd : ∀ p ∈ sp.tables ∪ sp.frames (userDom sz), p ∉ sp'.tables) :
    wp (uvmcopy (sp.root * 4096) (sp'.root * 4096) sz) (fun r s₁ => ∃ sp₁ D₁,
      CopyOf s s₁ sp' sp₁ D₁ ∧ D₁ ⊆ userDom sz ∧
      ((r = 0 ∧ D₁ = userDom sz ∧ Copies s s₁ sp sp₁ (userDom sz)) ∨
        (r = -1 ∧ Few s.free (1026 + sz / 4096)))) s := by
  simp only [USER_BASE, UART_0] at hlo hhi
  obtain ⟨n, hn⟩ : ∃ n, sz = (1 + n) * 4096 := ⟨sz / 4096 - 1, by omega⟩
  have hdiv : sz / 4096 = 1 + n := by omega
  have himg : imagePages sz = Set.Ico 1 (1 + n) := by rw [imagePages, hdiv]
  have hsub : Set.Ico 1 (1 + n) ⊆ userDom sz := by
    rw [userDom, himg]
    exact Set.subset_union_left
  have hstack : stackPage ∈ userDom sz := .inr rfl
  unfold uvmcopy
  rw [wp_bind]
  refine (uvmcopyLoop_spec h hs hh hn (by omega) hsub h' hk' hh' hd).mono fun r s₁ hr => ?_
  obtain ⟨k, sp₁, hfill, hkn, hr⟩ := hr
  have hsubk : Set.Ico 1 (1 + k) ⊆ userDom sz :=
    (Set.Ico_subset_Ico_right (by omega)).trans hsub
  have hcopy := hfill.copyOf hs hsubk hkn (by omega) hk' hh'
  rcases hr with ⟨rfl, rfl⟩ | ⟨rfl, hfew⟩
  · -- the image is there; now the stack
    have h₁ := h.frame hfill.frame (fun p hp => hh p (.inl hp)) fun p hp => hd p (.inl hp)
    have hheld := hfill.frame.held hh hd
    have hpage : sp.page stackPage ∈ sp.tables ∪ sp.frames (userDom sz) := .inr ⟨_, hstack, rfl⟩
    have hsame := hfill.frame.same _ (hh _ hpage) (hd _ hpage)
    have hvalid := hs.owns.valid _ hstack
    have hnot : stackPage ∉ Set.Ico 1 (1 + k) := by
      simp only [Set.mem_Ico, stackPage]
      omega
    rw [if_neg (by decide), wp_bind]
    refine wp.mono (findPte_spec h₁ (by decide)) fun pte s₂ hp => ?_
    obtain ⟨rfl, rfl⟩ := hp
    rw [wp_bind, show stackVa / 4096 = stackPage from rfl]
    refine (loadEntry_spec h₁ stackPage).mono fun w s₃ hw => ?_
    obtain ⟨rfl, rfl⟩ := hw
    have hz : sp₁.pte (stackPage + 0) % 2 = 0 := by
      rw [Nat.add_zero, hcopy.shape.kernel _ hnot, kernelPte_low (.inr rfl)]
    rw [if_neg (by rw [PTE_V, Nat.and_one_is_mod]; omega), ← hfill.grows.root]
    have hT : Held s₃ sp₁.tables := fun p hp => hcopy.frame.held' p (.inl hp)
    refine (copyPage_spec (k := 0) (.refl hfill.holds hT stackPage (fun v => sp.pte v % 1024)
      fun v o => s.bytes (sp.page v * 4096 + o)) (by decide) hz (hs.owns.pte2pa hstack)
      (hheld _ hpage) (pteFlags_eq _) hsame).mono fun r s₄ hr => ?_
    rcases hr with ⟨rfl, sp₂, hfill₂⟩ | ⟨rfl, hfew, sp₂, hfill₂⟩
    · obtain ⟨hsh, hfr, hold⟩ := hcopy.shape.filled hcopy.frame.held' hfill₂
        (fun v hv => .inr (by rwa [Ico_stack] at hv)) (fun v hv hm => by
          rw [Ico_stack, Set.mem_singleton_iff] at hm
          exact hnot (hm ▸ hv)) (fun v hv => by
          rw [Ico_stack, Set.mem_singleton_iff] at hv
          subst hv
          have h2 := hs.flags _ hstack
          rw [or_one_of_odd (by omega)]
          omega)
      have hdom : Set.Ico 1 (1 + k) ∪ Set.Ico stackPage (stackPage + (0 + 1)) = userDom sz := by
        rw [Nat.zero_add, Ico_stack, userDom, himg]
      rw [hdom] at hsh hfr
      refine ⟨sp₂, userDom sz, ⟨hfill.grows.trans hfill₂.grows, hfill₂.holds, hsh,
        hcopy.frame.trans hfr⟩, subset_rfl, .inl ⟨rfl, rfl, fun v hv => ?_⟩⟩
      rw [← hdom] at hv
      rcases hv with hv | hv
      · obtain ⟨hfl, hby⟩ := hfill.copies (fun v hv => hs.owns.valid v (hsub hv)) v hv
        obtain ⟨hp, hsm⟩ := hold v hv
        refine ⟨by rw [hp, hfl], fun o ho => ?_⟩
        rw [Space.page, hp, ← Space.page, hsm o ho, hby o ho]
      · have hv' := hv
        rw [Nat.zero_add, Ico_stack, Set.mem_singleton_iff] at hv'
        subst hv'
        refine ⟨?_, fun o ho => hfill₂.bytes _ hv o ho⟩
        rw [hfill₂.flags _ hv, or_one_of_odd (by omega)]
    · refine ⟨sp₂, Set.Ico 1 (1 + k), ?_, hsubk, .inr ⟨rfl, (hfill.few hfew).mono (by omega)⟩⟩
      have hpte : sp₂.pte = sp₁.pte := by
        funext v
        exact hfill₂.other v (by simp)
      have hfr₂ := hfill₂.frame
      rw [Nat.add_zero, Set.Ico_self, sp₂.frames_empty, Set.union_empty] at hfr₂
      obtain ⟨hsh, hfr, -⟩ := hcopy.shape.grows hcopy.frame.held' hpte hfr₂
      exact ⟨hfill.grows.trans hfill₂.grows, hfill₂.holds, hsh, hcopy.frame.trans hfr⟩
  · rw [if_pos (by decide), wp_pure]
    exact ⟨sp₁, _, hcopy, hsubk, .inr ⟨rfl, hfew.mono (by omega)⟩⟩

end Wl00.Vm
