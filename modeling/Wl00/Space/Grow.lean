import Wl00.Space.Lookup

/-!
# `uvmalloc` on any well-formed table

`Grown` says that a table maps the virtual pages `D` to new pages, and that nothing else has
come of it but second-level tables.  `uvmalloc` adds one page after another to `D`; when there
is no memory left, `uvmunmap` takes them out again one after another.

* `Grown.add`, `Grown.remove` — one page more and one page less.
* `Grown.undo` — `uvmunmap` takes the whole range out.
* `uvmalloc_all_or_nothing` — `uvmalloc` maps all pages of the range, or none.
-/

namespace Wl00.Vm

open Prog

variable {L : Layout} {s s' s₁ s₂ : Mem L} {pt va v q f : Nat}

/-! ## What a table depends on -/

namespace WellFormed

/-- The table is what its own pages hold. -/
theorem of_same (h : WellFormed s pt)
    (hs : ∀ p ∈ tablePages s.bytes pt, SamePage s.bytes s'.bytes p ∧ ¬s'.free p) :
    WellFormed s' pt ∧ tablePages s'.bytes pt = tablePages s.bytes pt ∧
      ∀ u < 2 ^ 32, pteAddr s'.bytes pt u = pteAddr s.bytes pt u ∧
        entryAt s'.bytes pt u = entryAt s.bytes pt u := by
  have hal := h.aligned
  have hroot : ∀ i < 1024, rootEntry s'.bytes pt i = rootEntry s.bytes pt i := by
    intro i hi
    have hw := (hs _ (.inl rfl)).1.word (j := 4 * i) (by omega)
    rwa [Nat.div_mul_cancel (Nat.dvd_of_mod_eq_zero hal)] at hw
  refine ⟨⟨hal, (hs _ (.inl rfl)).2, fun i hi hv => ?_, fun i hi j hj hvi hvj => ?_⟩,
    tablePages_congr hroot, fun u hu => ?_⟩
  · rw [hroot i hi] at hv ⊢
    obtain ⟨⟨hr, -⟩, hne⟩ := h.table i hi hv
    exact ⟨⟨hr, (hs _ (.inr ⟨i, hi, hv, rfl⟩)).2⟩, hne⟩
  · rw [hroot i hi] at hvi ⊢
    rw [hroot j hj] at hvj ⊢
    exact h.distinct i hi j hj hvi hvj
  · have haddr : pteAddr s'.bytes pt u = pteAddr s.bytes pt u := by
      rw [pteAddr_eq hu, hroot _ (by omega), ← pteAddr_eq hu]
    refine ⟨haddr, ?_⟩
    rw [entryAt, entryAt, haddr]
    by_cases hz : pteAddr s.bytes pt u = 0
    · rw [if_pos hz, if_pos hz]
    · obtain ⟨t, ht, he⟩ := h.pteAddr_page hu hz
      rw [if_neg hz, if_neg hz, he]
      exact (hs t ht).1.word (by omega)

/-- A program that leaves the pages of the table alone leaves the table alone. -/
theorem of_frame {A A' : Set Nat} (h : WellFormed s pt) (hf : Frame s s' A A')
    (hA : ∀ p ∈ tablePages s.bytes pt, p ∉ A) :
    WellFormed s' pt ∧ tablePages s'.bytes pt = tablePages s.bytes pt ∧
      ∀ u < 2 ^ 32, pteAddr s'.bytes pt u = pteAddr s.bytes pt u ∧
        entryAt s'.bytes pt u = entryAt s.bytes pt u :=
  h.of_same fun p hp =>
    ⟨hf.same p (h.held p hp) (hA p hp), (hf.other (h.held p hp) (hA p hp)).1⟩

/-- One page of `uvmunmap` with `free`: page `q`, which nobody else uses, goes back. -/
theorem unmapPage_free {fl : Nat} (h : WellFormed s pt) (hv : v < 2 ^ 20)
    (hl : lookup s.bytes pt (v * 4096) = some (q * 4096, fl)) (hq : InRange L q)
    (hqf : ¬s.free q) (hqt : q ∉ tablePages s.bytes pt) :
    wp (unmapPage pt (v * 4096) true) (fun _ s' => WellFormed s' pt ∧
      tablePages s'.bytes pt = tablePages s.bytes pt ∧
      Frame s s' ({q} ∪ tablePages s.bytes pt) (tablePages s.bytes pt) ∧
      ∀ u < 2 ^ 32, lookup s'.bytes pt u =
        if u / 4096 = v then none else lookup s.bytes pt u) s := by
  have hva : v * 4096 < 2 ^ 32 := by omega
  have ha : pteAddr s.bytes pt (v * 4096) ≠ 0 := by
    intro hz
    rw [lookup, entryAt, if_pos hz] at hl
    cases hl
  obtain ⟨hvalid, hpa⟩ : ¬entryAt s.bytes pt (v * 4096) % 2 = 0 ∧
      pte2pa (entryAt s.bytes pt (v * 4096)) = q * 4096 := by
    rw [lookup, decode] at hl
    split_ifs at hl with hz
    simp only [Option.some.injEq, Prod.mk.injEq] at hl
    rw [PTE_V, Nat.and_one_is_mod] at hz
    exact ⟨hz, hl.1⟩
  have hne : ∀ p ∈ tablePages s.bytes pt, p ∉ ({q} : Set Nat) := by
    rintro p hp rfl
    exact hqt hp
  rw [wp_unmapPage, if_neg hvalid, hpa, if_pos rfl]
  refine (kfree_spec hq hqf).mono fun _ s₁ hk => ?_
  have hf₁ := hk.1.frame (B := tablePages s.bytes pt) fun p hp => ⟨h.held p hp, hne p hp⟩
  rw [Set.empty_union] at hf₁
  obtain ⟨h₁, ht₁, he₁⟩ := h.of_frame hk.1 hne
  have hf₂ := h₁.frame_store hva (by rwa [(he₁ _ hva).1]) 0
  rw [ht₁] at hf₂
  rw [← (he₁ _ hva).1] at ha ⊢
  refine ⟨h₁.store hva ha 0, ?_, hf₁.trans hf₂, fun u hu => ?_⟩
  · rw [Mem.bytes_mapBytes, tablePages_congr fun i hi => h₁.root_store hva ha _ hi, ht₁]
  · rw [lookup, Mem.bytes_mapBytes, h₁.entryAt_store hva ha (by decide) hu, (he₁ u hu).2,
      Nat.mul_div_cancel _ (by decide)]
    split
    · rfl
    · rfl

end WellFormed

/-! ## Tables that have grown -/

/-- Since `s`, the table at `pt` has come to map the virtual pages `D`, each to a `page` of its
own that is full of zeros.  Apart from these pages it may have got more second-level tables,
and that is all that has happened. -/
structure Grown (s s' : Mem L) (pt f : Nat) (D : Set Nat) (page : Nat → Nat) : Prop where
  wf : WellFormed s' pt
  sub : tablePages s.bytes pt ⊆ tablePages s'.bytes pt
  frame : Frame s s' (tablePages s.bytes pt) (page '' D ∪ tablePages s'.bytes pt)
  mapped : ∀ u < 2 ^ 32, u / 4096 ∈ D →
    lookup s'.bytes pt u = some (page (u / 4096) * 4096, f ||| PTE_V)
  other : ∀ u < 2 ^ 32, u / 4096 ∉ D → lookup s'.bytes pt u = lookup s.bytes pt u
  apart : ∀ v ∈ D, page v ∉ tablePages s'.bytes pt
  zeroed : ∀ v ∈ D, Zeroed s'.bytes (page v)
  inj : Set.InjOn page D

namespace Grown

variable {D : Set Nat} {page : Nat → Nat}

theorem refl (h : WellFormed s pt) (f : Nat) (page : Nat → Nat) : Grown s s pt f ∅ page where
  wf := h
  sub := subset_rfl
  frame := by
    rw [Set.image_empty, Set.empty_union]
    exact .refl h.held
  mapped _ _ hu := hu.elim
  other _ _ _ := rfl
  apart _ hv := hv.elim
  zeroed _ hv := hv.elim
  inj := Set.injOn_empty page

/-- The pages were free. -/
theorem free (h : Grown s s₁ pt f D page) (hv : v ∈ D) : s.free (page v) :=
  (h.frame.fresh _ (.inl ⟨v, hv, rfl⟩)).resolve_left fun ht => h.apart v hv (h.sub ht)

theorem not_free (h : Grown s s₁ pt f D page) (hv : v ∈ D) : ¬s₁.free (page v) :=
  h.frame.held' _ (.inl ⟨v, hv, rfl⟩)

/-- Nothing that counts has happened. -/
theorem of_frame (h : Grown s s₁ pt f D page) (hf : Frame s₁ s₂ ∅ ∅) : Grown s s₂ pt f D page := by
  obtain ⟨h₂, ht, he⟩ := h.wf.of_frame hf fun _ _ => id
  have hfr := hf.frame (B := page '' D ∪ tablePages s₁.bytes pt) fun p hp =>
    ⟨h.frame.held' p hp, id⟩
  rw [Set.empty_union] at hfr
  refine ⟨h₂, ht ▸ h.sub, ht ▸ h.frame.trans hfr, fun u hu hD => ?_, fun u hu hD => ?_,
    ht ▸ h.apart, fun v hv => ?_, h.inj⟩
  · rw [lookup, (he u hu).2]
    exact h.mapped u hu hD
  · rw [lookup, (he u hu).2]
    exact h.other u hu hD
  · exact (h.zeroed v hv).congr (hf.same _ (h.not_free hv) id)

/-- **One page more**: `s₂` is `s₁` with a new page `q` full of zeros, which `mappages` maps. -/
theorem add (h : Grown s s₁ pt f D page) (hv : v ∉ D) (hq : s₁.free q)
    (hf₂ : Frame s₁ s₂ ∅ {q}) (hz : Zeroed s₂.bytes q) (h' : WellFormed s' pt)
    (hext : Extends s₂ s' pt) (hl : ∀ u < 2 ^ 32, lookup s'.bytes pt u =
      if u / 4096 = v then some (q * 4096, f ||| PTE_V) else lookup s₂.bytes pt u) :
    Grown s s' pt f (insert v D) (Function.update page v q) := by
  obtain ⟨h₂, ht, he⟩ := h.wf.of_frame hf₂ fun _ _ => id
  have hpage : ∀ w ∈ D, Function.update page v q w = page w := by
    intro w hw
    refine Function.update_of_ne ?_ q page
    rintro rfl
    exact hv hw
  have himage : Function.update page v q '' insert v D = {q} ∪ page '' D := by
    rw [Set.image_insert_eq, Function.update_self, Set.image_congr hpage]
    rfl
  -- the pages behind the table, the new one among them, are other pages than those of the table
  have hheld : ∀ p ∈ {q} ∪ page '' D, ¬s₂.free p ∧ p ∉ tablePages s₂.bytes pt := by
    rw [ht]
    rintro p (rfl | ⟨w, hw, rfl⟩)
    · exact ⟨hf₂.held' _ rfl, fun hp => h.wf.held _ hp hq⟩
    · exact ⟨(hf₂.other (h.not_free hw) id).1, h.apart w hw⟩
  have hapart : ∀ p ∈ {q} ∪ page '' D, p ∉ tablePages s'.bytes pt := fun p hp =>
    (hext.1.other (hheld p hp).1 (hheld p hp).2).2
  have hsame : ∀ p ∈ {q} ∪ page '' D, SamePage s₂.bytes s'.bytes p := fun p hp =>
    hext.1.same p (hheld p hp).1 (hheld p hp).2
  have hnew : ∀ w ∈ D, page w ≠ q := fun w hw heq => h.not_free hw (heq ▸ hq)
  refine ⟨h', (ht ▸ h.sub).trans hext.2, ?_, fun u hu hD => ?_, fun u hu hD => ?_, fun w hw => ?_,
    fun w hw => ?_, ?_⟩
  · have e₁ := hf₂.frame (B := page '' D ∪ tablePages s₁.bytes pt) fun p hp =>
      ⟨h.frame.held' p hp, id⟩
    have e₂ := hext.1.frame hheld
    rw [Set.empty_union, ← Set.union_assoc] at e₁
    rw [ht, Set.union_comm, Set.union_comm (tablePages s'.bytes pt)] at e₂
    rw [himage]
    exact (h.frame.trans e₁).trans e₂
  · rw [hl u hu]
    rcases hD with rfl | hD
    · rw [if_pos rfl, Function.update_self]
    · have hne : u / 4096 ≠ v := by
        rintro rfl
        exact hv hD
      rw [if_neg hne, hpage _ hD, lookup, (he u hu).2]
      exact h.mapped u hu hD
  · rw [hl u hu, if_neg fun heq => hD (.inl heq), lookup, (he u hu).2]
    exact h.other u hu fun hD' => hD (.inr hD')
  · exact hapart _ (himage ▸ Set.mem_image_of_mem _ hw)
  · rcases hw with rfl | hw
    · rw [Function.update_self]
      exact hz.congr (hsame q (.inl rfl))
    · rw [hpage w hw]
      exact ((h.zeroed w hw).congr (hf₂.same _ (h.not_free hw) id)).congr
        (hsame _ (.inr ⟨w, hw, rfl⟩))
  · rw [Set.injOn_insert hv, Function.update_self, Set.image_congr hpage]
    refine ⟨h.inj.congr fun w hw => (hpage w hw).symm, ?_⟩
    rintro ⟨w, hw, heq⟩
    exact hnew w hw heq

/-- **One page less**, where the page was not mapped at first. -/
theorem remove (h : Grown s s₁ pt f D page) (hv : v ∈ D)
    (hnone : ∀ u < 2 ^ 32, u / 4096 = v → lookup s.bytes pt u = none) (h' : WellFormed s' pt)
    (ht : tablePages s'.bytes pt = tablePages s₁.bytes pt)
    (hf : Frame s₁ s' ({page v} ∪ tablePages s₁.bytes pt) (tablePages s₁.bytes pt))
    (hl : ∀ u < 2 ^ 32, lookup s'.bytes pt u =
      if u / 4096 = v then none else lookup s₁.bytes pt u) : Grown s s' pt f (D \ {v}) page := by
  have hne : ∀ w ∈ D \ {v}, page w ∉ {page v} ∪ tablePages s₁.bytes pt := by
    rintro w ⟨hw, hwv⟩ (heq | hp)
    · exact hwv (h.inj hw hv heq)
    · exact h.apart w hw hp
  have hsplit : page '' D = page '' (D \ {v}) ∪ {page v} := by
    rw [← Set.image_singleton, ← Set.image_union, Set.sdiff_union_of_subset
      (Set.singleton_subset_iff.2 hv)]
  refine ⟨h', ht ▸ h.sub, ?_, fun u hu hD => ?_, fun u hu hD => ?_, fun w hw => ?_, fun w hw => ?_,
    h.inj.mono Set.sdiff_subset⟩
  · have e := hf.frame (B := page '' (D \ {v})) (by
      rintro p ⟨w, hw, rfl⟩
      exact ⟨h.not_free hw.1, hne w hw⟩)
    have hfr := h.frame
    rw [hsplit, Set.union_assoc, Set.union_comm] at hfr
    rw [ht, Set.union_comm (page '' (D \ {v}))]
    exact hfr.trans e
  · have hne : u / 4096 ≠ v := hD.2
    rw [hl u hu, if_neg hne]
    exact h.mapped u hu hD.1
  · rw [hl u hu]
    split
    · next heq => exact (hnone u hu heq).symm
    · next hne => exact h.other u hu fun hD' => hD ⟨hD', hne⟩
  · rw [ht]
    exact h.apart w hw.1
  · exact (h.zeroed w hw.1).congr (hf.same _ (h.not_free hw.1) (hne w hw))

/-- Where no page is mapped, what has been taken is second-level tables. -/
theorem taken_table (h : Grown s s₁ pt f ∅ page) {p : Nat} (hp : s.free p) (hp' : ¬s₁.free p) :
    p ∈ tablePages s₁.bytes pt ∧ p ∉ tablePages s.bytes pt := by
  refine ⟨?_, fun ht => Footprint.held h.frame p ht hp⟩
  by_contra hn
  refine hp' ((h.frame.free_iff p).2 ⟨.inl hp, ?_⟩)
  rintro (⟨_, hv, -⟩ | ht)
  · exact hv.elim
  · exact hn ht

/-- **`uvmunmap` takes the whole range out again.** -/
theorem undo {a k : Nat} (h : Grown s s₁ pt f (Set.Ico a (a + k)) page) (hk : a + k < 2 ^ 20)
    (hnone : ∀ u < 2 ^ 32, u / 4096 ∈ Set.Ico a (a + k) → lookup s.bytes pt u = none) :
    wp (uvmunmap pt (a * 4096) (k * 4096) true) (fun _ s' => Grown s s' pt f ∅ page) s₁ := by
  -- after `j` rounds the first `j` pages are gone
  refine (uvmunmap_rule (I := fun j s₂ => Grown s s₂ pt f (Set.Ico (a + j) (a + k)) page) hk h
    fun j hj s₂ h₂ => ?_).mono fun _ s' h' => by rwa [Set.Ico_self] at h'
  have hmem : a + j ∈ Set.Ico (a + j) (a + k) := ⟨Nat.le_refl _, by omega⟩
  have hlast : Set.Ico (a + j) (a + k) \ {a + j} = Set.Ico (a + (j + 1)) (a + k) := by
    ext w
    simp only [Set.mem_sdiff, Set.mem_Ico, Set.mem_singleton_iff]
    omega
  have hmap := h₂.mapped ((a + j) * 4096) (by omega) (by
    rwa [Nat.mul_div_cancel _ (by decide)])
  rw [Nat.mul_div_cancel _ (by decide)] at hmap
  refine (h₂.wf.unmapPage_free (by omega) hmap (h₂.free hmem).inRange (h₂.not_free hmem)
    (h₂.apart _ hmem)).mono fun _ s₃ hu => ?_
  obtain ⟨h₃, ht, hf, hl⟩ := hu
  rw [← hlast]
  refine h₂.remove hmem (fun u hu heq => hnone u hu ?_) h₃ ht hf hl
  rw [heq]
  exact ⟨by omega, by omega⟩

end Grown

/-! ## `uvmalloc` -/

/-- All pages from `a` on that begin below `newsz`, or none. -/
theorem uvmalloc_grown {a n oldsz newsz xperm : Nat} (h : WellFormed s pt) (hle : oldsz ≤ newsz)
    (ha : pgRoundUp oldsz = a * 4096) (hn : a + n < 2 ^ 20)
    (hnew : ∀ k, (a + k) * 4096 < newsz ↔ k < n) (hx : xperm < 1024)
    (hnone : ∀ u < 2 ^ 32, u / 4096 ∈ Set.Ico a (a + n) → lookup s.bytes pt u = none) :
    wp (uvmalloc pt oldsz newsz xperm) (fun r s' => ∃ page,
      (r = newsz ∧ Grown s s' pt (PTE_R ||| PTE_U ||| xperm) (Set.Ico a (a + n)) page) ∨
        (r = 0 ∧ Grown s s' pt (PTE_R ||| PTE_U ||| xperm) ∅ page)) s := by
  have hf : PTE_R ||| PTE_U ||| xperm < 2 ^ 10 := Nat.or_lt_two_pow (by decide) hx
  have hstart : Grown s s pt (PTE_R ||| PTE_U ||| xperm) (Set.Ico a (a + 0)) id := by
    rw [Nat.add_zero, Set.Ico_self]
    exact .refl h _ _
  refine (uvmalloc_rule (I := fun k s₁ => ∃ page,
      Grown s s₁ pt (PTE_R ||| PTE_U ||| xperm) (Set.Ico a (a + k)) page)
    (R := fun s' => ∃ page, Grown s s' pt (PTE_R ||| PTE_U ||| xperm) ∅ page) hle ha hn hnew
    ⟨id, hstart⟩ ?_ ?_ ?_).mono fun r s' hr => ?_
  · rintro k s₁ s₂ ⟨page, hg⟩ hf₁
    exact ⟨page, hg.of_frame hf₁⟩
  · rintro k hk s₁ s₂ q ⟨page, hg⟩ hq hf₂ hz₂
    have hql := hq.inRange.lt
    obtain ⟨h₂, -, he⟩ := hg.wf.of_frame hf₂ fun _ _ => id
    have hout : a + k ∉ Set.Ico a (a + k) := fun hm => Nat.lt_irrefl _ hm.2
    have hfree : lookup s₂.bytes pt ((a + k) * 4096) = none := by
      rw [lookup, (he _ (by omega)).2]
      refine (hg.other _ (by omega) ?_).trans (hnone _ (by omega) ?_) <;>
        rw [Nat.mul_div_cancel _ (by decide)]
      · exact hout
      · exact ⟨by omega, by omega⟩
    refine (mappage_entry h₂ (by omega) (by omega) (by omega) (by omega) (hf.trans (by decide))
      (decode_eq_none.1 hfree)).mono fun r s₃ hr => ?_
    rcases hr with hr | ⟨hne, h₃, he₃, -, hext⟩
    · exact .inl hr
    · have hnext : insert (a + k) (Set.Ico a (a + k)) = Set.Ico a (a + (k + 1)) := by
        ext w
        simp only [Set.mem_insert_iff, Set.mem_Ico]
        omega
      have hadd := hg.add hout hq hf₂ hz₂ h₃ hext fun u hu => by
        rw [lookup, he₃ u hu, Nat.mul_div_cancel _ (by decide)]
        split
        · exact decode_mkPte (by omega) (by omega) hf
        · rfl
      rw [hnext] at hadd
      exact .inr ⟨hne, _, hadd⟩
  · rintro k hk s₁ ⟨page, hg⟩ -
    exact (hg.undo (by omega) fun u hu hD => hnone u hu ⟨hD.1, by have := hD.2; omega⟩).mono
      fun _ s' hu => ⟨page, hu⟩
  · rcases hr with ⟨rfl, page, hg⟩ | ⟨rfl, page, hg⟩
    · exact ⟨page, .inl ⟨rfl, hg⟩⟩
    · exact ⟨page, .inr ⟨rfl, hg⟩⟩

/-- **`uvmalloc` is all or nothing.**  For every well-formed table that maps no page of the
range, and however much memory there is: if it returns `newsz`, the pages of the range are
mapped, to distinct pages that were free and are full of zeros, and every other lookup is what
it was; if it returns 0, every lookup is what it was, and the pages that are no longer free are
the new second-level tables. -/
theorem uvmalloc_all_or_nothing {oldsz newsz xperm : Nat} (h : WellFormed s pt)
    (hbase : USER_BASE ≤ oldsz) (hle : oldsz ≤ newsz) (htop : newsz ≤ UART_0)
    (hx : xperm ∈ [0, PTE_W, PTE_X, PTE_W ||| PTE_X])
    (hnone : ∀ u, pgRoundUp oldsz ≤ u → u < pgRoundUp newsz → lookup s.bytes pt u = none) :
    ∃ r s', uvmalloc pt oldsz newsz xperm s = .ok (r, s') ∧ WellFormed s' pt ∧
      (r = newsz ∨ r = 0) ∧
      (r = newsz → ∃ page : Nat → Nat,
        (∀ u, pgRoundUp oldsz ≤ u → u < pgRoundUp newsz →
          lookup s'.bytes pt u =
            some (page (u / PAGE_SIZE) * PAGE_SIZE, PTE_V ||| PTE_R ||| PTE_U ||| xperm) ∧
          s.free (page (u / PAGE_SIZE)) ∧ ¬s'.free (page (u / PAGE_SIZE)) ∧
          Zeroed s'.bytes (page (u / PAGE_SIZE))) ∧
        (∀ u w, pgRoundUp oldsz ≤ u → u < pgRoundUp newsz → pgRoundUp oldsz ≤ w →
          w < pgRoundUp newsz → page (u / PAGE_SIZE) = page (w / PAGE_SIZE) →
          u / PAGE_SIZE = w / PAGE_SIZE) ∧
        ∀ u < 2 ^ 32, ¬(pgRoundUp oldsz ≤ u ∧ u < pgRoundUp newsz) →
          lookup s'.bytes pt u = lookup s.bytes pt u) ∧
      (r = 0 → (∀ u < 2 ^ 32, lookup s'.bytes pt u = lookup s.bytes pt u) ∧
        (∀ p, s.free p ∧ ¬s'.free p ↔
          p ∈ tablePages s'.bytes pt ∧ p ∉ tablePages s.bytes pt) ∧
        ∀ p, s'.free p → s.free p) := by
  have hflags : xperm < 1024 ∧
      PTE_R ||| PTE_U ||| xperm ||| PTE_V = PTE_V ||| PTE_R ||| PTE_U ||| xperm := by
    simp only [List.mem_cons, List.not_mem_nil, or_false] at hx
    rcases hx with rfl | rfl | rfl | rfl <;> exact ⟨by decide, rfl⟩
  rw [pgRoundUp_eq (hle.trans htop), pgRoundUp_eq htop] at *
  simp only [UART_0, USER_BASE] at hbase htop
  generalize ha : (oldsz + 4095) / 4096 = a at *
  obtain ⟨n, hn⟩ : ∃ n, (newsz + 4095) / 4096 = a + n :=
    ⟨(newsz + 4095) / 4096 - a, by omega⟩
  rw [hn] at hnone ⊢
  have hmem : ∀ u, u / 4096 ∈ Set.Ico a (a + n) ↔ a * 4096 ≤ u ∧ u < (a + n) * 4096 := by
    intro u
    rw [Set.mem_Ico]
    omega
  obtain ⟨r, s', hrun, page, hr⟩ := wp_iff.1 (uvmalloc_grown (a := a) (n := n) h hle
    (by rw [pgRoundUp_eq (by simp only [UART_0]; omega), ha]) (by omega) (fun k => by omega)
    hflags.1 fun u _ hu => hnone u ((hmem u).1 hu).1 ((hmem u).1 hu).2)
  simp only [PAGE_SIZE]
  rcases hr with ⟨rfl, hg⟩ | ⟨rfl, hg⟩
  · refine ⟨r, s', hrun, hg.wf, .inl rfl, fun _ => ⟨page, fun u hlo hhi => ?_,
      fun u w hu hu' hw hw' => ?_, fun u hu hout => ?_⟩, fun hz => by omega⟩
    · have hu := (hmem u).2 ⟨hlo, hhi⟩
      rw [hg.mapped u (by omega) hu, hflags.2]
      exact ⟨rfl, hg.free hu, hg.not_free hu, hg.zeroed _ hu⟩
    · exact hg.inj ((hmem u).2 ⟨hu, hu'⟩) ((hmem w).2 ⟨hw, hw'⟩)
    · exact hg.other u hu (mt (hmem u).1 hout)
  · refine ⟨0, s', hrun, hg.wf, .inr rfl, fun hz => by omega, fun _ =>
      ⟨fun u hu => hg.other u hu id, fun p => ⟨?_, ?_⟩, fun p hp => ?_⟩⟩
    · rintro ⟨hp, hp'⟩
      exact hg.taken_table hp hp'
    · rintro ⟨hp, hp'⟩
      exact ⟨(hg.frame.fresh p (.inr hp)).resolve_left hp', hg.wf.held p hp⟩
    · exact ((hg.frame.free_iff p).1 hp).1.resolve_right fun ht => hg.wf.held p (hg.sub ht) hp

/-- The table of a new process gets the first two pages of an image. -/
theorem uvmalloc_all_or_nothing_tiny : ∃ (pt : Nat) (s s' : Mem tinyLayout) (page : Nat → Nat),
    initUserpt (Mem.fresh tinyLayout) = .ok (pt, s) ∧
      uvmalloc pt USER_BASE 0x2800 PTE_W s = .ok (0x2800, s') ∧
      lookup s'.bytes pt 0x1000 = some (page 1 * PAGE_SIZE, PTE_V ||| PTE_R ||| PTE_U ||| PTE_W) ∧
      lookup s'.bytes pt 0x2000 = some (page 2 * PAGE_SIZE, PTE_V ||| PTE_R ||| PTE_U ||| PTE_W) ∧
      page 1 ≠ page 2 ∧ lookup s'.bytes pt 0x3000 = lookup s.bytes pt 0x3000 := by
  obtain ⟨pt, s, hpt, hne, hfew⟩ := initUserpt_fresh
  obtain ⟨sp, rfl, hk, hh, hf⟩ := initUserpt_run hpt hne
  have hlow : ∀ v < 3, sp.pte v % 2 = 0 := by
    intro v hv
    rw [hk, kernelPte_low (.inl (by omega))]
  have hup : pgRoundUp USER_BASE = 0x1000 ∧ pgRoundUp 0x2800 = 0x3000 := by decide
  have hnone : ∀ u, pgRoundUp USER_BASE ≤ u → u < pgRoundUp 0x2800 →
      lookup s.bytes (sp.root * 4096) u = none := by
    rw [hup.1, hup.2]
    intro u _ hu
    rw [lookup, hh.entryAt_eq (by omega), decode_eq_none]
    exact hlow _ (by omega)
  obtain ⟨r, s', hrun, -, -, hok, -⟩ := @uvmalloc_all_or_nothing _ s _ USER_BASE 0x2800 PTE_W
    (hh.wellFormed hf.held') (by decide) (by decide) (by decide) (by decide) hnone
  obtain rfl : r = 0x2800 := by
    rcases (uvmalloc_spec (a := 1) (n := 2) hh hf.held' (by decide) hup.1 (by decide)
      (fun k => by omega) (by decide) fun v hv => hlow v (by have := hv.2; omega)).of_run hrun with
      hr | ⟨-, hno, -⟩
    · exact hr.1
    · exact absurd (hno.mono (by decide)) hfew
  obtain ⟨page, hmap, hinj, hother⟩ := hok rfl
  rw [hup.1, hup.2] at hmap hinj hother
  refine ⟨_, s, s', page, hpt, hrun, (hmap 0x1000 (by decide) (by decide)).1,
    (hmap 0x2000 (by decide) (by decide)).1, fun heq => ?_,
    hother 0x3000 (by decide) (by decide)⟩
  have := hinj 0x1000 0x2000 (by decide) (by decide) (by decide) (by decide) heq
  revert this
  decide

end Wl00.Vm
