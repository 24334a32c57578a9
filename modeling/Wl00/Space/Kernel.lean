import Wl00.Space.Table

/-!
# The kernel's mappings

Every page table begins with a root of zeros, and user tables with the mappings of the
kernel, which carry no `PTE_U`.

* `freewalk_spec` — `freewalk` gives back the pages of a table, and no page it maps.
* `initUserpt_spec` — `init_userpt` maps what `kernelPte` says, or gives everything
  back.
* `kptableMake_spec` — whatever the kernel's own table maps in the end, it is a table.
-/

namespace Wl00.Vm

open Prog

variable {L : Layout} {s s' : Mem L} {sp : Space}

/-! ## `freewalk` -/

/-- The root, and the tables from index `i` on. -/
def Space.rest (sp : Space) (i : Nat) : Set Nat :=
  {p | p = sp.root ∨ ∃ j, i ≤ j ∧ sp.tbl j = some p}

theorem Space.rest_zero (sp : Space) : sp.rest 0 = sp.tables := by
  ext p
  simp [rest, tables]

theorem Space.rest_succ_of_none {i : Nat} (h : sp.tbl i = none) : sp.rest (i + 1) = sp.rest i := by
  ext p
  refine or_congr Iff.rfl ⟨?_, ?_⟩
  · rintro ⟨j, hj, hp⟩
    exact ⟨j, by omega, hp⟩
  · rintro ⟨j, hj, hp⟩
    refine ⟨j, Nat.lt_of_le_of_ne hj ?_, hp⟩
    rintro rfl
    rw [h] at hp
    cases hp

theorem Holds.rest_succ_of_some {m : Bytes} (h : Holds L m sp) {i t : Nat}
    (ht : sp.tbl i = some t) : sp.rest i \ {t} = sp.rest (i + 1) := by
  ext p
  constructor
  · rintro ⟨rfl | ⟨j, hj, hp⟩, hne⟩
    · exact .inl rfl
    · refine .inr ⟨j, Nat.lt_of_le_of_ne hj ?_, hp⟩
      rintro rfl
      exact hne (Option.some.inj (hp.symm.trans ht))
  · rintro (rfl | ⟨j, hj, hp⟩)
    · exact ⟨.inl rfl, fun he => (h.tbl_range i t ht).2.2 he.symm⟩
    · refine ⟨.inr ⟨j, by omega, hp⟩, ?_⟩
      rintro rfl
      have := h.tbl_inj i j p ht hp
      omega

theorem Holds.rest_last {m : Bytes} (h : Holds L m sp) : sp.rest 1024 = {sp.root} := by
  ext p
  constructor
  · rintro (rfl | ⟨j, hj, hp⟩)
    · rfl
    · have := (h.tbl_range j p hp).2.1
      omega
  · rintro rfl
    exact .inl rfl

/-- **`freewalk` frees the tables**, each once, and nothing else. -/
theorem freewalk_spec (h : Holds L s.bytes sp) (hh : Held s sp.tables) :
    wp (freewalk (sp.root * 4096)) (fun _ s' => Frame s s' sp.tables ∅) s := by
  unfold freewalk
  rw [wp_bind]
  -- the root is not touched before the loop is over
  let I : Nat → Mem L → Prop := fun i s₁ => i ≤ 1024 ∧ Frame s s₁ sp.tables (sp.rest i) ∧
    SamePage s.bytes s₁.bytes sp.root
  refine wp_loop I (1024 - ·) ?_ ⟨by omega, by rw [sp.rest_zero]; exact .refl hh, fun _ _ => rfl⟩
    (by simp only [rounds]; omega)
  rintro i s₁ ⟨hi, hf, hr⟩
  by_cases hlt : i < 1024
  · rw [if_pos hlt]
    simp only [wp_bind, wp_load, hr.word (show 4 * i + 4 ≤ 4096 by omega), h.root_eq i hlt,
      and_one_ne, PTE_V]
    cases ht : sp.tbl i with
    | none =>
        rw [if_neg (by simp [rootWord]), wp_pure]
        exact ⟨⟨by omega, by rwa [Space.rest_succ_of_none ht], hr⟩, by omega⟩
    | some t =>
        obtain ⟨htr, -, hne⟩ := h.tbl_range i t ht
        have htl := htr.lt
        have hpa : pte2pa (rootWord (some t)) = t * 4096 := by
          rw [pte2pa_eq, rootWord]
          omega
        rw [if_pos (by simp only [rootWord]; omega), hpa, wp_bind]
        have hheld : ¬s₁.free t := hf.held' t (.inr ⟨i, Nat.le_refl i, ht⟩)
        have hroot : ¬s₁.free sp.root := hf.held' _ (.inl rfl)
        refine (kfree_spec htr hheld).mono fun _ s₂ hk => ?_
        rw [wp_pure]
        have hw := hk.1.widen hf.held' (Set.singleton_subset_iff.2 (.inr ⟨i, Nat.le_refl i, ht⟩))
        rw [Set.empty_union, h.rest_succ_of_some ht] at hw
        exact ⟨⟨by omega, hf.trans hw, hr.trans (hk.1.same _ hroot fun he => hne he.symm)⟩,
          by omega⟩
  · rw [if_neg hlt, wp_pure]
    obtain rfl : i = 1024 := by omega
    rw [h.rest_last] at hf
    exact (kfree_spec h.root_range (hf.held' _ rfl)).mono fun _ s₂ hk => hf.trans hk.1

/-! ## A new root -/

/-- A root of zeros. -/
def Space.empty (t : Nat) : Space := ⟨t, fun _ => none, fun _ => 0⟩

theorem Space.tables_empty (t : Nat) : (Space.empty t).tables = {t} := by
  ext p
  simp [tables, empty]

theorem holds_empty {m : Bytes} {t : Nat} (ht : InRange L t) (hz : ∀ o < 4096, m (t * 4096 + o) = 0) :
    Holds L m (.empty t) where
  root_range := ht
  tbl_range _ _ h := by cases h
  tbl_inj _ _ _ h := by cases h
  root_eq i hi := by
    have hz4 : ∀ k < 4, m (t * 4096 + 4 * i + k) = 0 := by
      intro k hk
      rw [Nat.add_assoc]
      exact hz _ (by omega)
    have h0 := hz4 0 (by omega)
    rw [Nat.add_zero] at h0
    show m.word (t * 4096 + 4 * i) = 0
    rw [Bytes.word, h0, hz4 1 (by omega), hz4 2 (by omega), hz4 3 (by omega)]
    rfl
  leaf_eq _ _ h := by cases h
  no_table _ _ := rfl

/-- A page of zeros that has just been allocated. -/
theorem holds_fresh {t : Nat} {s₁ : Mem L} (ht : s.free t) (hf : Frame s s₁ ∅ {t}) :
    Holds L (s₁.mapBytes (·.fill (t * 4096) 0 PAGE_SIZE)).bytes (.empty t) ∧
      Frame s (s₁.mapBytes (·.fill (t * 4096) 0 PAGE_SIZE)) ∅ (Space.empty t).tables := by
  rw [Space.tables_empty]
  refine ⟨holds_empty ht.inRange fun o ho => ?_, hf.trans (frame_fill (hf.held' t rfl))⟩
  rw [Mem.bytes_mapBytes, Bytes.fill_apply, if_pos (by simp only [PAGE_SIZE]; omega)]

theorem ptcreate_spec (s : Mem L) : wp ptcreate (fun pa s' =>
    (pa = 0 ∧ s' = s ∧ ∀ p, ¬s.free p) ∨
      ∃ t, pa = t * 4096 ∧ pa ≠ 0 ∧ Holds L s'.bytes (.empty t) ∧
        Frame s s' ∅ (Space.empty t).tables) s := by
  unfold ptcreate
  rw [wp_bind]
  refine (kalloc_spec s).mono fun pa s₁ hk => ?_
  rcases hk with ⟨rfl, rfl, hfull⟩ | ⟨t, rfl, hfree, -, hf⟩
  · rw [if_pos rfl, wp_pure]
    exact .inl ⟨rfl, rfl, hfull⟩
  · have := hfree.inRange.lt
    rw [if_neg (by omega)]
    simp only [wp_bind, wp_memset, wp_pure]
    obtain ⟨h, hf'⟩ := holds_fresh hfree hf
    exact .inr ⟨t, rfl, by omega, h, hf'⟩

/-! ## `init_userpt` -/

/-- The entries of the kernel's mappings in a user table. -/
def kernelPte (L : Layout) (v : Nat) : Nat :=
  if 0x80000 ≤ v ∧ v * 4096 < L.etext then v * 1024 + 11
  else if (L.etext ≤ v * 4096 ∧ v < 0x88000) ∨ v = 0x10000 then v * 1024 + 7
  else 0

/-- What has become of a new table at `t` after some calls of `mappages`, the last of
which has returned `r`: it maps `pte`, or the memory is full. -/
def Mapped (s : Mem L) (t : Nat) (pte : Nat → Nat) (r : Int) (s' : Mem L) : Prop :=
  ∃ sp, sp.root = t ∧ Holds L s'.bytes sp ∧ Frame s s' ∅ sp.tables ∧
    ((0 ≤ r ∧ sp.pte = pte) ∨ (r < 0 ∧ ∀ p, ¬s'.free p))

theorem Mapped.mappages {s₁ : Mem L} {t va size v n f : Nat} {pte : Nat → Nat} {r : Int}
    (h : Mapped s t pte r s₁) (hr : 0 ≤ r) (hva : va = v * 4096) (hsz : size = n * 4096)
    (hn : 0 < n) (hv : v + n < 2 ^ 20) (hf : f < 1024)
    (hfree : ∀ u, v ≤ u → u < v + n → pte u = 0) :
    wp (mappages (t * 4096) va va size f)
      (fun r' s' => Mapped s t (mapRange pte v v f n) r' s') s₁ := by
  subst hva hsz
  obtain ⟨sp, rfl, hsp, hfr, ⟨-, rfl⟩ | ⟨hr', -⟩⟩ := h
  · refine (mappages_spec hsp hfr.held' hn hv hv hf ?_).mono fun r' s₂ hm => ?_
    · intro u h1 h2
      rw [hfree u h1 h2]
    · obtain ⟨sp', k, hg, hp, hsp', hfr', ⟨rfl, rfl⟩ | ⟨rfl, -, hfull⟩⟩ := hm
      · exact ⟨sp', hg.root, hsp', hfr.trans hfr', .inl ⟨by omega, hp⟩⟩
      · exact ⟨sp', hg.root, hsp', hfr.trans hfr', .inr ⟨by omega, hfull⟩⟩
  · omega

/-- One call in a row of calls of `mappages`. -/
theorem Mapped.step {s₁ : Mem L} {t va size v n f : Nat} {pte : Nat → Nat} {r : Int}
    (h : Mapped s t pte r s₁) (hva : va = v * 4096) (hsz : size = n * 4096) (hn : 0 < n)
    (hv : v + n < 2 ^ 20) (hf : f < 1024) (hfree : ∀ u, v ≤ u → u < v + n → pte u = 0) :
    wp (orFails r (Vm.mappages (t * 4096) va va size f))
      (fun r' s' => Mapped s t (mapRange pte v v f n) r' s') s₁ := by
  unfold orFails
  by_cases hr : r < 0
  · rw [if_pos hr, wp_pure]
    obtain ⟨sp, rfl, hsp, hfr, hr' | hfull⟩ := h
    · omega
    · exact ⟨sp, rfl, hsp, hfr, .inr hfull⟩
  · rw [if_neg hr]
    exact h.mappages (by omega) hva hsz hn hv hf hfree

/-- Where the text and the data of the kernel lie, in pages. -/
theorem Layout.pages (L : Layout) : ∃ b n d, b = 0x80000 ∧ 0 < n ∧ 0 < d ∧ b + n + 1 + d = 0x88000 ∧
    L.trampoline = (b + n) * 4096 ∧ L.etext = (b + n + 1) * 4096 := by
  have h1 := L.base_lt
  have h2 := L.etext_lt
  have h3 := L.kend_le
  have h4 := L.aligned
  simp only [KERNBASE, PAGE_SIZE, MEM_END] at h1 h2 h3 h4
  refine ⟨0x80000, L.trampoline / 4096 - 0x80000, 0x88000 - (L.trampoline / 4096 + 1), ?_⟩
  rw [Layout.etext, PAGE_SIZE]
  omega

theorem mapRange_self {pte : Nat → Nat} {v f n u : Nat} : mapRange pte v v f n u =
    if v ≤ u ∧ u < v + n then u * 1024 + (f ||| 1) else pte u := by
  rw [mapRange]
  split_ifs with h
  · rw [show v + (u - v) = u by omega]
  · rfl

/-- The four ranges that `init_userpt` maps. -/
theorem mapRange_kernel {b n d c : Nat} (hb : b = 0x80000) (hd : b + n + 1 + d = 0x88000)
    (he : L.etext = (b + n + 1) * 4096) (hc : c = 0x10000) :
    mapRange (mapRange (mapRange (mapRange (fun _ => 0) b b 11 n) (b + n) (b + n) 11 1)
      (b + n + 1) (b + n + 1) 7 d) c c 7 1 = kernelPte L := by
  funext v
  simp only [mapRange_self, kernelPte, show (11 ||| 1) = 11 from rfl, show (7 ||| 1) = 7 from rfl]
  split_ifs <;> omega

/-- **`init_userpt` maps the kernel**, or gives back every page it has taken. -/
theorem initUserpt_spec (s : Mem L) : wp initUserpt (fun pa s' =>
    (pa = 0 ∧ Frame s s' ∅ ∅ ∧ Few s.free 1025) ∨
      ∃ sp, pa = sp.root * 4096 ∧ pa ≠ 0 ∧ sp.pte = kernelPte L ∧ Holds L s'.bytes sp ∧
        Frame s s' ∅ sp.tables) s := by
  obtain ⟨b, n, d, hb, hn, hd, hbd, ht, he⟩ := L.pages
  obtain ⟨c, hc⟩ : ∃ c, c = 0x10000 := ⟨_, rfl⟩
  unfold initUserpt
  rw [wp_bind]
  refine (ptcreate_spec s).mono fun pa s₁ hcr => ?_
  rcases hcr with ⟨rfl, rfl, hfull⟩ | ⟨t, rfl, hne, h, hf⟩
  · rw [if_pos rfl, wp_pure]
    exact .inl ⟨rfl, .refl fun _ => False.elim, (Few.none hfull).mono (by omega)⟩
  · rw [if_neg hne]
    simp only [ht, KERNBASE, PAGE_SIZE, MEM_END, UART_0]
    rw [wp_bind]
    have m₀ : Mapped s t (fun _ => 0) 0 s₁ := ⟨.empty t, rfl, h, hf, .inl ⟨by omega, rfl⟩⟩
    refine wp.mono (m₀.mappages (v := b) (n := n) (by omega) (by omega) (by omega) hn
      (by omega) (by decide) fun _ _ _ => rfl) fun r₁ s₂ m₁ => ?_
    rw [wp_bind]
    refine wp.mono (m₁.step (v := b + n) (n := 1) (by omega) (by omega) (by omega)
      (by omega) (by decide) ?_) fun r₂ s₃ m₂ => ?_
    · intro u h1 h2
      rw [mapRange_self, if_neg (by omega)]
    rw [wp_bind]
    refine wp.mono (m₂.step (v := b + n + 1) (n := d) (by omega) (by omega) (by omega)
      (by omega) (by decide) ?_) fun r₃ s₄ m₃ => ?_
    · intro u h1 h2
      rw [mapRange_self, if_neg (by omega), mapRange_self, if_neg (by omega)]
    rw [wp_bind]
    refine wp.mono (m₃.step (v := c) (n := 1) (by omega) (by omega) (by omega) (by omega)
      (by decide) ?_) fun r₄ s₅ m₄ => ?_
    · intro u h1 h2
      rw [mapRange_self, if_neg (by omega), mapRange_self, if_neg (by omega), mapRange_self,
        if_neg (by omega)]
    replace m₄ : Mapped s t (kernelPte L) r₄ s₅ := mapRange_kernel hb hbd he hc ▸ m₄
    obtain ⟨sp, rfl, hsp, hfr, ⟨hr, hp⟩ | ⟨hr, hfull⟩⟩ := m₄
    · rw [if_neg (by omega), wp_pure]
      exact .inr ⟨sp, rfl, hne, hp, hsp, hfr⟩
    · rw [if_pos hr, wp_bind]
      refine (freewalk_spec hsp hfr.held').mono fun _ s₆ hw => ?_
      rw [wp_pure]
      refine .inl ⟨rfl, hfr.trans hw, ?_⟩
      obtain ⟨G, hG, hmem⟩ := hsp.tables_card
      exact ((Few.none hfull).of_footprint hfr hmem).mono (by omega)

/-! ## `kptable_make` -/

/-- What has become of the kernel's table at `t` after some calls of `mappages` whose
results are not looked at: it maps `pte`, or the memory is full; in both cases it maps
nothing where `pte` has no entry. -/
def KMapped (s : Mem L) (t : Nat) (pte : Nat → Nat) (s' : Mem L) : Prop :=
  ∃ sp, sp.root = t ∧ Holds L s'.bytes sp ∧ Frame s s' ∅ sp.tables ∧
    (∀ u, pte u = 0 → sp.pte u = 0) ∧ (sp.pte = pte ∨ ∀ p, ¬s'.free p)

theorem KMapped.mappages {s₁ : Mem L} {t va size v n f : Nat} {pte : Nat → Nat}
    (h : KMapped s t pte s₁) (hva : va = v * 4096) (hsz : size = n * 4096) (hn : 0 < n)
    (hv : v + n < 2 ^ 20) (hf : f < 1024) (hfree : ∀ u, v ≤ u → u < v + n → pte u = 0) :
    wp (mappages (t * 4096) va va size f)
      (fun _ s' => KMapped s t (mapRange pte v v f n) s') s₁ := by
  subst hva hsz
  obtain ⟨sp, rfl, hsp, hfr, hz, hp⟩ := h
  refine (mappages_spec hsp hfr.held' hn hv hv hf ?_).mono fun r' s₂ hm => ?_
  · intro u h1 h2
    rw [hz u (hfree u h1 h2)]
  · obtain ⟨sp', k, hg, hp', hsp', hfr', hr⟩ := hm
    refine ⟨sp', hg.root, hsp', hfr.trans hfr', ?_, ?_⟩
    · intro u hu
      have hodd := or_one_mod f
      rw [mapRange_self] at hu
      by_cases hr' : v ≤ u ∧ u < v + n
      · rw [if_pos hr'] at hu
        omega
      · rw [if_neg hr'] at hu
        rw [hp', mapRange_self, if_neg (by omega)]
        exact hz u hu
    · rcases hr with ⟨-, rfl⟩ | ⟨-, -, hfull⟩
      · refine hp.imp (fun hp => by rw [hp', hp]) fun hfull p hfree => ?_
        -- `mappages` takes pages and gives none back
        rcases ((hfr'.free_iff p).1 hfree).1 with hf' | hf'
        · exact hfull p hf'
        · exact ((hfr'.free_iff p).1 hfree).2 (hg.tables hf')
      · exact .inr hfull

/-- The three ranges that `kptable_make` maps. -/
theorem mapRange_kptable {b n d c : Nat} (hb : b = 0x80000) (hd : b + n + 1 + d = 0x88000)
    (he : L.etext = (b + n + 1) * 4096) (hc : c = 0x10000) :
    mapRange (mapRange (mapRange (fun _ => 0) c c 6 1) b b 10 (n + 1)) (b + n + 1) (b + n + 1) 6 d =
      kernelPte L := by
  funext v
  simp only [mapRange_self, kernelPte, show (10 ||| 1) = 11 from rfl, show (6 ||| 1) = 7 from rfl]
  split_ifs <;> omega

/-- **`kptable_make` maps the kernel** as `init_userpt` does, or leaves no page free. -/
theorem kptableMake_spec (s : Mem L) : wpe kptableMake (fun pa s' =>
    ∃ sp, pa = sp.root * 4096 ∧ Holds L s'.bytes sp ∧ Frame s s' ∅ sp.tables ∧
      (sp.pte = kernelPte L ∨ ∀ p, ¬s'.free p))
    (fun e => e = .nullTable ∧ ∀ p, ¬s.free p) s := by
  obtain ⟨b, n, d, hb, hn, hd, hbd, ht, he⟩ := L.pages
  obtain ⟨c, hc⟩ : ∃ c, c = 0x10000 := ⟨_, rfl⟩
  have hround : pgRoundUp ((b + n + 1) * 4096) = (b + n + 1) * 4096 := by
    simp only [pgRoundUp, PAGE_SIZE]
    omega
  unfold kptableMake
  rw [wpe_bind]
  refine ((kalloc_spec s).toWpe).mono (fun pa s₁ hk => ?_) fun _ h => h
  rcases hk with ⟨rfl, rfl, hfull⟩ | ⟨t, rfl, hfree, -, hf⟩
  · rw [if_pos rfl, wpe_throw]
    exact ⟨rfl, hfull⟩
  · have htl := hfree.inRange.lt
    rw [if_neg (by omega)]
    apply wp.toWpe
    simp only [he, hround, KERNBASE, PAGE_SIZE, MEM_END, UART_0]
    rw [wp_bind, wp_memset]
    obtain ⟨h, hf'⟩ := holds_fresh hfree hf
    have m₀ : KMapped s t (fun _ => 0) (s₁.mapBytes (·.fill (t * 4096) 0 4096)) :=
      ⟨.empty t, rfl, h, hf', fun _ _ => rfl, .inl rfl⟩
    rw [wp_bind]
    refine wp.mono (m₀.mappages (v := c) (n := 1) (by omega) (by omega) (by omega)
      (by omega) (by decide) fun _ _ _ => rfl) fun r₁ s₂ m₁ => ?_
    rw [wp_bind]
    refine wp.mono (m₁.mappages (v := b) (n := n + 1) (by omega) (by omega) (by omega)
      (by omega) (by decide) ?_) fun r₂ s₃ m₂ => ?_
    · intro u h1 h2
      rw [mapRange_self, if_neg (by omega)]
    rw [wp_bind]
    refine wp.mono (m₂.mappages (v := b + n + 1) (n := d) (by omega) (by omega) (by omega)
      (by omega) (by decide) ?_) fun r₃ s₄ m₃ => ?_
    · intro u h1 h2
      rw [mapRange_self, if_neg (by omega), mapRange_self, if_neg (by omega)]
    replace m₃ : KMapped s t (kernelPte L) s₄ := mapRange_kptable hb hbd he hc ▸ m₃
    obtain ⟨sp, rfl, hsp, hfr, -, hp⟩ := m₃
    rw [wp_pure]
    exact ⟨sp, rfl, hsp, hfr, hp⟩

end Wl00.Vm
