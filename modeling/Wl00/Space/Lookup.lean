import Wl00.Space.Elf

/-!
# A page table as a finite map

What a table in memory maps is what `find_pte` finds in it: `lookup m pt va` is the physical
page and the flags that the table at `pt` gives for `va`.  A table is `WellFormed` when its
pages are allocated pages, one for each valid entry of the root; the rest of the root, and
what invalid entries hold, is arbitrary.

* `mappage_inserts` — `mappage` adds one page to the map and leaves the rest alone.
* `mappages_inserts`, `uvmunmap_erases` — the same for a range, and back again.
* `uvmunmap_inverse` puts the two together; `uvmunmap_wraps` is a range on which they do not
  fit.
-/

namespace Wl00.Vm

open Prog

variable {L : Layout} {s s' : Mem L} {pt va u : Nat}

/-! ## Lookups -/

/-- The physical page and the flags that an entry stands for, if it is valid. -/
def decode (w : Nat) : Option (Nat × Nat) :=
  if w &&& PTE_V = 0 then none else some (pte2pa w, pteFlags w)

/-- What the table at `pt` maps `va` to. -/
def lookup (m : Bytes) (pt va : Nat) : Option (Nat × Nat) := decode (entryAt m pt va)

theorem decode_eq_none {w : Nat} : decode w = none ↔ w % 2 = 0 := by
  unfold decode
  have := and_one_ne w
  split
  · next h =>
    simp only [true_iff]
    rw [PTE_V] at h
    omega
  · next h =>
    rw [PTE_V] at h
    simp only [reduceCtorEq, false_iff]
    omega

/-- The entry that `mappage` writes.  It does not cut `flags` to the ten flag bits, so the bits
above them end up in the page number. -/
theorem decode_or {q : Nat} (hq : q < 2 ^ 20) (f : Nat) :
    decode (pa2pte (q * 4096) ||| f ||| PTE_V) =
      some ((q ||| f / 2 ^ 10 % 2 ^ 20) * 4096, f % 2 ^ 10 ||| PTE_V) := by
  have hw : pa2pte (q * 4096) ||| f ||| PTE_V = (q <<< 10 ||| f) ||| 1 := by
    rw [pa2pte, Nat.shiftRight_eq_div_pow, Nat.mul_div_cancel _ (by decide), PTE_V]
  have hpg : ((q <<< 10 ||| f) ||| 1) / 1024 % 2 ^ 20 = q ||| f / 2 ^ 10 % 2 ^ 20 := by
    rw [show 1024 = 2 ^ 10 by rfl, Nat.or_div_two_pow, Nat.or_div_two_pow, Nat.shiftLeft_eq,
      Nat.mul_div_cancel _ (by decide), Nat.or_zero, Nat.or_mod_two_pow, Nat.mod_eq_of_lt hq]
  have hfl : ((q <<< 10 ||| f) ||| 1) % 1024 = f % 2 ^ 10 ||| 1 := by
    rw [show 1024 = 2 ^ 10 by rfl, Nat.or_mod_two_pow, Nat.or_mod_two_pow, Nat.shiftLeft_eq,
      Nat.mul_mod_left, Nat.zero_or]
  rw [hw, decode, if_neg ((and_one_ne _).2 (or_one_mod _)), pte2pa_eq, hpg, pteFlags_eq, hfl, PTE_V]

/-- With flags that are flag bits it round-trips. -/
theorem decode_mkPte {pa f : Nat} (hpa : pa < 2 ^ 32) (ha : pa % 4096 = 0) (hf : f < 2 ^ 10) :
    decode (pa2pte pa ||| f ||| PTE_V) = some (pa, f ||| PTE_V) := by
  obtain ⟨q, hq, rfl⟩ : ∃ q, q < 2 ^ 20 ∧ pa = q * 4096 := ⟨pa / 4096, by omega, by omega⟩
  rw [decode_or hq, Nat.div_eq_of_lt hf, Nat.zero_mod, Nat.or_zero, Nat.mod_eq_of_lt hf]

/-- What `flags` has above the ten flag bits of an entry is in the page number of `pa` already. -/
def FlagsFit (flags pa : Nat) : Prop :=
  pa / PAGE_SIZE ||| flags / 2 ^ 10 % 2 ^ 20 = pa / PAGE_SIZE

/-- The entry points to `pa` exactly when the flags fit. -/
theorem decode_page_iff {pa f : Nat} (hpa : pa < 2 ^ 32) (ha : pa % 4096 = 0) :
    (∃ fl, decode (pa2pte pa ||| f ||| PTE_V) = some (pa, fl)) ↔ FlagsFit f pa := by
  obtain ⟨q, hq, rfl⟩ : ∃ q, q < 2 ^ 20 ∧ pa = q * 4096 := ⟨pa / 4096, by omega, by omega⟩
  rw [decode_or hq, FlagsFit, PAGE_SIZE, Nat.mul_div_cancel _ (by decide)]
  constructor
  · rintro ⟨fl, he⟩
    have hpage := congrArg Prod.fst (Option.some.inj he)
    exact Nat.eq_of_mul_eq_mul_right (by decide) hpage
  · intro he
    exact ⟨_, by rw [he]⟩

theorem Zeroed.word {m : Bytes} {p j : Nat} (h : Zeroed m p) (hj : j + 4 ≤ 4096) :
    m.word (p * 4096 + j) = 0 := by
  have h4 : ∀ k < 4, m (p * 4096 + j + k) = 0 := by
    intro k hk
    rw [Nat.add_assoc]
    exact h _ (by omega)
  have h0 := h4 0 (by omega)
  rw [Nat.add_zero] at h0
  rw [Bytes.word, h0, h4 1 (by omega), h4 2 (by omega), h4 3 (by omega)]
  rfl

/-! ## Well-formed tables -/

/-- Page `p` has been allocated. -/
def Allocated (s : Mem L) (p : Nat) : Prop := InRange L p ∧ ¬s.free p

/-- The second-level tables are distinct allocated pages, and distinct from the root. -/
structure WellFormed (s : Mem L) (pt : Nat) : Prop where
  aligned : pt % 4096 = 0
  root : ¬s.free (pt / 4096)
  table : ∀ i < 1024, rootEntry s.bytes pt i % 2 = 1 →
    Allocated s (pte2pa (rootEntry s.bytes pt i) / 4096) ∧ pte2pa (rootEntry s.bytes pt i) ≠ pt
  distinct : ∀ i < 1024, ∀ j < 1024, rootEntry s.bytes pt i % 2 = 1 →
    rootEntry s.bytes pt j % 2 = 1 →
    pte2pa (rootEntry s.bytes pt i) = pte2pa (rootEntry s.bytes pt j) → i = j

/-- The pages of the table itself: the root and the second-level tables. -/
def tablePages (m : Bytes) (pt : Nat) : Set Nat :=
  {p | p = pt / 4096 ∨ ∃ i < 1024, rootEntry m pt i % 2 = 1 ∧ pte2pa (rootEntry m pt i) / 4096 = p}

theorem tablePages_congr {m m' : Bytes}
    (hr : ∀ i < 1024, rootEntry m' pt i = rootEntry m pt i) : tablePages m' pt = tablePages m pt := by
  ext p
  refine or_congr Iff.rfl ⟨?_, ?_⟩
  · rintro ⟨i, hi, hv⟩
    rw [hr i hi] at hv
    exact ⟨i, hi, hv⟩
  · rintro ⟨i, hi, hv⟩
    rw [← hr i hi] at hv
    exact ⟨i, hi, hv⟩

namespace WellFormed

theorem table_ne (h : WellFormed s pt) {i : Nat} (hi : i < 1024)
    (hv : rootEntry s.bytes pt i % 2 = 1) : 0x80002000 ≤ pte2pa (rootEntry s.bytes pt i) := by
  have := (h.table i hi hv).1.1.lt
  omega

theorem pteAddr_ne (h : WellFormed s pt) (hva : va < 2 ^ 32) : pteAddr s.bytes pt va ≠ 0 ↔
    rootEntry s.bytes pt (va / 4096 / 1024) % 2 = 1 := by
  rw [pteAddr_eq hva]
  split
  · next hv =>
    have := h.table_ne (by omega) hv
    simp only [hv, iff_true]
    omega
  · next hv => simp [hv]

theorem held (h : WellFormed s pt) : Held s (tablePages s.bytes pt) := by
  rintro p (rfl | ⟨i, hi, hv, rfl⟩)
  · exact h.root
  · exact (h.table i hi hv).1.2

/-- The entry for `va` lies in a second-level table. -/
theorem pteAddr_page (h : WellFormed s pt) (hva : va < 2 ^ 32) (ha : pteAddr s.bytes pt va ≠ 0) :
    ∃ t ∈ tablePages s.bytes pt, pteAddr s.bytes pt va = t * 4096 + 4 * (va / 4096 % 1024) := by
  have hv := (h.pteAddr_ne hva).1 ha
  have hpa := pte2pa_eq (rootEntry s.bytes pt (va / 4096 / 1024))
  refine ⟨_, .inr ⟨va / 4096 / 1024, by omega, hv, rfl⟩, ?_⟩
  rw [pteAddr_eq hva, if_pos hv]
  omega

/-- Storing the entry stays in the table. -/
theorem frame_store (h : WellFormed s pt) (hva : va < 2 ^ 32) (ha : pteAddr s.bytes pt va ≠ 0)
    (w : Nat) : Frame s (s.mapBytes (·.storeWord (pteAddr s.bytes pt va) w)) (tablePages s.bytes pt)
      (tablePages s.bytes pt) := by
  obtain ⟨t, ht, he⟩ := h.pteAddr_page hva ha
  rw [he]
  exact (Vm.frame_store (h.held t ht) (by omega)).widen_self h.held (Set.singleton_subset_iff.2 ht)

/-- The root is all that matters of the bytes. -/
theorem congr (h : WellFormed s pt) (hr : ∀ i < 1024, rootEntry s'.bytes pt i = rootEntry s.bytes pt i)
    (hf : ∀ p, s'.free p → s.free p) : WellFormed s' pt where
  aligned := h.aligned
  root := fun hp => h.root (hf _ hp)
  table i hi hv := by
    rw [hr i hi] at hv ⊢
    obtain ⟨⟨h1, h2⟩, h3⟩ := h.table i hi hv
    exact ⟨⟨h1, fun hp => h2 (hf _ hp)⟩, h3⟩
  distinct i hi j hj hvi hvj := by
    rw [hr i hi] at hvi ⊢
    rw [hr j hj] at hvj ⊢
    exact h.distinct i hi j hj hvi hvj

/-- A write to a second-level table leaves the root alone. -/
theorem root_store (h : WellFormed s pt) (hva : va < 2 ^ 32) (ha : pteAddr s.bytes pt va ≠ 0)
    (w : Nat) {i : Nat} (hi : i < 1024) :
    rootEntry (s.bytes.storeWord (pteAddr s.bytes pt va) w) pt i = rootEntry s.bytes pt i := by
  have hv := (h.pteAddr_ne hva).1 ha
  have hne := (h.table _ (by omega) hv).2
  have hal := h.aligned
  have hpa := pte2pa_eq (rootEntry s.bytes pt (va / 4096 / 1024))
  rw [pteAddr_eq hva, if_pos hv]
  exact Bytes.word_storeWord_of_ne (by omega)

theorem store (h : WellFormed s pt) (hva : va < 2 ^ 32) (ha : pteAddr s.bytes pt va ≠ 0) (w : Nat) :
    WellFormed (s.mapBytes (·.storeWord (pteAddr s.bytes pt va) w)) pt :=
  h.congr (fun _ hi => h.root_store hva ha w hi) fun _ => id

/-- **Storing the entry for `va` changes that lookup and no other.** -/
theorem entryAt_store (h : WellFormed s pt) (hva : va < 2 ^ 32) (ha : pteAddr s.bytes pt va ≠ 0)
    {w : Nat} (hw : w < 2 ^ 32) (hu : u < 2 ^ 32) :
    entryAt (s.bytes.storeWord (pteAddr s.bytes pt va) w) pt u =
      if u / 4096 = va / 4096 then w else entryAt s.bytes pt u := by
  have hv := (h.pteAddr_ne hva).1 ha
  have hroot := h.root_store hva ha w (i := u / 4096 / 1024) (by omega)
  have haddr : pteAddr (s.bytes.storeWord (pteAddr s.bytes pt va) w) pt u = pteAddr s.bytes pt u := by
    rw [pteAddr_eq hu, hroot, ← pteAddr_eq hu]
  rw [entryAt, haddr]
  by_cases huv : u / 4096 = va / 4096
  · have he : pteAddr s.bytes pt u = pteAddr s.bytes pt va := by
      rw [pteAddr_eq hu, pteAddr_eq hva, huv]
    rw [he, if_neg ha, if_pos huv, Bytes.word_storeWord hw]
  · rw [if_neg huv, entryAt]
    split
    · rfl
    · next hz =>
      refine Bytes.word_storeWord_of_ne ?_
      have hvu := (h.pteAddr_ne hu).1 hz
      rw [pteAddr_eq hu, if_pos hvu, pteAddr_eq hva, if_pos hv]
      have h1 := pte2pa_eq (rootEntry s.bytes pt (u / 4096 / 1024))
      have h2 := pte2pa_eq (rootEntry s.bytes pt (va / 4096 / 1024))
      by_cases ht : u / 4096 / 1024 = va / 4096 / 1024
      · rw [ht]
        omega
      · -- two tables, two pages
        have := mt (h.distinct _ (by omega) _ (by omega) hvu hv) ht
        omega

end WellFormed

namespace NewTable

variable {i t : Nat}

theorem range (h : NewTable s s' t) : InRange L t := h.free.inRange

theorem same (h : NewTable s s' t) {p : Nat} (hp : ¬s.free p) : SamePage s.bytes s'.bytes p :=
  h.frame.same p hp id

theorem pte2pa_eq (h : NewTable s s' t) : pte2pa (t * 1024 + 1) = t * 4096 := by
  have := h.range.lt
  rw [Vm.pte2pa_eq]
  omega

theorem not_free (h : NewTable s s' t) {p : Nat} (hp : ¬s.free p) : ¬s'.free p :=
  fun hp' => ((h.frame.free_iff p).1 hp').1.elim hp id

/-- The tables that were there are other pages. -/
theorem ne_table (h : NewTable s s' t) (hw : WellFormed s pt) {j : Nat} (hj : j < 1024)
    (hv : rootEntry s.bytes pt j % 2 = 1) : pte2pa (rootEntry s.bytes pt j) ≠ t * 4096 := by
  intro he
  have := (hw.table j hj hv).1.2
  rw [he, Nat.mul_div_cancel _ (by decide)] at this
  exact this h.free

/-- The root has one more entry. -/
theorem rootEntry_eq (h : NewTable s s' t) (hw : WellFormed s pt) {j : Nat} (hj : j < 1024) :
    rootEntry (s'.bytes.storeWord (pt + 4 * i) (t * 1024 + 1)) pt j =
      if j = i then t * 1024 + 1 else rootEntry s.bytes pt j := by
  have htl := h.range.lt
  have hal := hw.aligned
  split
  · next he =>
    subst he
    exact Bytes.word_storeWord (by omega)
  · have hs := (h.same hw.root).word (j := 4 * j) (by omega)
    rw [show pt / 4096 * 4096 = pt by omega] at hs
    rw [rootEntry, Bytes.word_storeWord_of_ne (by omega), hs]

theorem wellFormed (h : NewTable s s' t) (hw : WellFormed s pt) :
    WellFormed (s'.mapBytes (·.storeWord (pt + 4 * i) (t * 1024 + 1))) pt where
  aligned := hw.aligned
  root := h.not_free hw.root
  table j hj hv := by
    simp only [Mem.bytes_mapBytes] at hv ⊢
    rw [h.rootEntry_eq hw hj] at hv ⊢
    by_cases hji : j = i
    · have hrt : pt / 4096 ≠ t := fun he => hw.root (he ▸ h.free)
      rw [if_pos hji, h.pte2pa_eq, Nat.mul_div_cancel _ (by decide)]
      refine ⟨⟨h.range, h.frame.held' t rfl⟩, ?_⟩
      omega
    · rw [if_neg hji] at hv ⊢
      obtain ⟨⟨h1, h2⟩, h3⟩ := hw.table j hj hv
      exact ⟨⟨h1, h.not_free h2⟩, h3⟩
  distinct j hj k hk hvj hvk he := by
    simp only [Mem.bytes_mapBytes] at hvj hvk he
    rw [h.rootEntry_eq hw hj] at hvj he
    rw [h.rootEntry_eq hw hk] at hvk he
    by_cases hji : j = i <;> by_cases hki : k = i
    · rw [hji, hki]
    · rw [if_pos hji, if_neg hki, h.pte2pa_eq] at he
      rw [if_neg hki] at hvk
      exact absurd he.symm (h.ne_table hw hk hvk)
    · rw [if_neg hji, if_pos hki, h.pte2pa_eq] at he
      rw [if_neg hji] at hvj
      exact absurd he (h.ne_table hw hj hvj)
    · rw [if_neg hji] at hvj he
      rw [if_neg hki] at hvk he
      exact hw.distinct j hj k hk hvj hvk he

/-- A new second-level table changes no lookup. -/
theorem entryAt_eq (h : NewTable s s' t) (hw : WellFormed s pt) (hi : i < 1024)
    (hn : rootEntry s.bytes pt i % 2 = 0) (hu : u < 2 ^ 32) :
    entryAt (s'.bytes.storeWord (pt + 4 * i) (t * 1024 + 1)) pt u = entryAt s.bytes pt u := by
  have hal := hw.aligned
  have hrt : pt / 4096 ≠ t := fun he => hw.root (he ▸ h.free)
  have htl := h.range.lt
  have hui : u / 4096 / 1024 < 1024 := by omega
  rw [entryAt, entryAt, pteAddr_eq hu, pteAddr_eq hu, h.rootEntry_eq hw hui]
  by_cases hi' : u / 4096 / 1024 = i
  · -- the new table, where nothing is mapped
    have hodd : (t * 1024 + 1) % 2 = 1 := by omega
    have heven : ¬rootEntry s.bytes pt (u / 4096 / 1024) % 2 = 1 := by
      rw [hi']
      omega
    rw [if_pos hi', h.pte2pa_eq, if_pos hodd, if_neg heven, if_pos rfl, if_neg (by omega),
      Bytes.word_storeWord_of_ne (by omega)]
    exact h.zeroed.word (by omega)
  · rw [if_neg hi']
    by_cases hv : rootEntry s.bytes pt (u / 4096 / 1024) % 2 = 1
    · have htbl := hw.table _ hui hv
      have hpu := Vm.pte2pa_eq (rootEntry s.bytes pt (u / 4096 / 1024))
      have hs := (h.same htbl.1.2).word (j := 4 * (u / 4096 % 1024)) (by omega)
      rw [if_pos hv, Bytes.word_storeWord_of_ne (by omega)]
      rw [show pte2pa (rootEntry s.bytes pt (u / 4096 / 1024)) / 4096 * 4096 =
        pte2pa (rootEntry s.bytes pt (u / 4096 / 1024)) by omega] at hs
      rw [hs]
    · rw [if_neg hv, if_pos rfl, if_pos rfl]

theorem tablePages_eq (h : NewTable s s' t) (hw : WellFormed s pt) (hi : i < 1024)
    (hn : rootEntry s.bytes pt i % 2 = 0) :
    tablePages (s'.bytes.storeWord (pt + 4 * i) (t * 1024 + 1)) pt = {t} ∪ tablePages s.bytes pt := by
  ext p
  constructor
  · rintro (rfl | ⟨j, hj, hv, rfl⟩)
    · exact .inr (.inl rfl)
    · rw [h.rootEntry_eq hw hj] at hv ⊢
      by_cases hji : j = i
      · rw [if_pos hji, h.pte2pa_eq, Nat.mul_div_cancel _ (by decide)]
        exact .inl rfl
      · rw [if_neg hji] at hv ⊢
        exact .inr (.inr ⟨j, hj, hv, rfl⟩)
  · rintro (rfl | rfl | ⟨j, hj, hv, rfl⟩)
    · refine .inr ⟨i, hi, ?_⟩
      rw [h.rootEntry_eq hw hi, if_pos rfl, h.pte2pa_eq, Nat.mul_div_cancel _ (by decide)]
      exact ⟨by omega, rfl⟩
    · exact .inl rfl
    · have hji : j ≠ i := by
        rintro rfl
        omega
      refine .inr ⟨j, hj, ?_⟩
      rw [h.rootEntry_eq hw hj, if_neg hji]
      exact ⟨hv, rfl⟩

end NewTable

/-! ## The tables that the kernel builds -/

/-- A valid entry of the root is a second-level table of the space. -/
theorem Holds.rootEntry_valid {sp : Space} (h : Holds L s.bytes sp) {i : Nat} (hi : i < 1024)
    (hv : rootEntry s.bytes (sp.root * 4096) i % 2 = 1) :
    ∃ t, sp.tbl i = some t ∧ pte2pa (rootEntry s.bytes (sp.root * 4096) i) = t * 4096 := by
  rw [rootEntry, h.root_eq i hi] at hv ⊢
  cases ht : sp.tbl i with
  | none =>
      rw [ht] at hv
      cases hv
  | some t =>
      have := (h.tbl_range i t ht).1.lt
      exact ⟨t, rfl, by rw [pte2pa_eq, rootWord]; omega⟩

theorem Holds.wellFormed {sp : Space} (h : Holds L s.bytes sp) (hh : Held s sp.tables) :
    WellFormed s (sp.root * 4096) := by
  refine ⟨Nat.mul_mod_left .., ?_, fun i hi hv => ?_, fun i hi j hj hvi hvj he => ?_⟩
  · rw [Nat.mul_div_cancel _ (by decide)]
    exact hh _ sp.root_mem
  · obtain ⟨t, ht, hpa⟩ := h.rootEntry_valid hi hv
    obtain ⟨hr, -, hne⟩ := h.tbl_range i t ht
    rw [hpa, Nat.mul_div_cancel _ (by decide)]
    exact ⟨⟨hr, hh t (Space.tbl_mem ht)⟩, by omega⟩
  · obtain ⟨t, ht, hpa⟩ := h.rootEntry_valid hi hvi
    obtain ⟨t', ht', hpa'⟩ := h.rootEntry_valid hj hvj
    obtain rfl : t = t' := by omega
    exact h.tbl_inj i j t ht ht'

/-- The table that `init_userpt` makes on the small machine. -/
theorem initUserpt_tiny : ∃ (pt : Nat) (s : Mem tinyLayout),
    initUserpt (Mem.fresh tinyLayout) = .ok (pt, s) ∧ WellFormed s pt ∧ ¬Few s.free 18000 ∧
      ∀ va < 2 ^ 32, lookup s.bytes pt va = decode (kernelPte tinyLayout (va / 4096)) := by
  obtain ⟨pt, s, hrun, hne, hfew⟩ := initUserpt_fresh
  obtain ⟨sp, rfl, hk, hh, hf⟩ := initUserpt_run hrun hne
  refine ⟨_, s, hrun, hh.wellFormed hf.held', hfew, fun va hva => ?_⟩
  rw [lookup, hh.entryAt_eq hva, hk]

/-! ## `mappage` -/

/-- The table at `pt` may have got more second-level tables, and nothing has been written
anywhere else. -/
def Extends (s s' : Mem L) (pt : Nat) : Prop :=
  Frame s s' (tablePages s.bytes pt) (tablePages s'.bytes pt) ∧
    tablePages s.bytes pt ⊆ tablePages s'.bytes pt

/-- `find_pte` with `alloc` finds the entry, in a table that it may have to add. -/
theorem findPteAlloc_lookup (h : WellFormed s pt) (hva : va < 2 ^ 32) :
    wp (findPte pt va true) (fun a s' =>
      (a = 0 ∧ s' = s ∧ ∀ p, ¬s.free p) ∨
      (a ≠ 0 ∧ a = pteAddr s'.bytes pt va ∧ WellFormed s' pt ∧
        (∀ u < 2 ^ 32, entryAt s'.bytes pt u = entryAt s.bytes pt u) ∧
        (∀ j, Few s'.free j → Few s.free (j + 1)) ∧ Extends s s' pt)) s := by
  refine wp_findPteAlloc hva (fun hv => .inr ?_) (fun hfull => .inl ⟨rfl, rfl, hfull⟩)
    fun t s₁ hn hnew => .inr ?_
  · exact ⟨(h.pteAddr_ne hva).2 hv, rfl, h, fun u _ => rfl, fun j hj => hj.mono (Nat.le_succ j),
      .refl h.held, subset_rfl⟩
  · have htl := hnew.range.lt
    have hi : va / 4096 / 1024 < 1024 := by omega
    refine ⟨by omega, ?_, hnew.wellFormed h, fun u hu => hnew.entryAt_eq h hi hn hu,
      fun j hj => Few.of_footprint (G := {t}) hj hnew.frame (by simp), ?_⟩
    · rw [pteAddr_eq hva, Mem.bytes_mapBytes, hnew.rootEntry_eq h hi, if_pos rfl,
        if_pos (by omega), hnew.pte2pa_eq]
    · have hf₂ := hnew.frame.widen h.held (Set.empty_subset _)
      rw [Set.sdiff_empty] at hf₂
      have hroot : pt / 4096 ∈ {t} ∪ tablePages s.bytes pt := .inr (.inl rfl)
      have hf₃ := hf₂.trans ((frame_store (j := 4 * (va / 4096 / 1024)) (w := t * 1024 + 1)
        (hf₂.held' _ hroot) (by omega)).widen_self hf₂.held' (Set.singleton_subset_iff.2 hroot))
      rw [Nat.div_mul_cancel (Nat.dvd_of_mod_eq_zero h.aligned)] at hf₃
      rw [Extends, Mem.bytes_mapBytes, hnew.tablePages_eq h hi hn]
      exact ⟨hf₃, Set.subset_union_right⟩

theorem mkPte_lt {pa f : Nat} (hpa : pa < 2 ^ 32) (hf : f < 2 ^ 32) :
    pa2pte pa ||| f ||| PTE_V < 2 ^ 32 := by
  have hppn : pa2pte pa < 2 ^ 32 := by
    rw [pa2pte, Nat.shiftRight_eq_div_pow, Nat.shiftLeft_eq]
    omega
  exact Nat.or_lt_two_pow (Nat.or_lt_two_pow hppn hf) (by decide)

/-- `mappage` writes one entry. -/
theorem mappage_entry {pa flags : Nat} (h : WellFormed s pt) (hva : va < 2 ^ 32)
    (hva' : va % 4096 = 0) (hpa : pa < 2 ^ 32) (hpa' : pa % 4096 = 0) (hf : flags < 2 ^ 32)
    (hfree : entryAt s.bytes pt va % 2 = 0) :
    wp (mappage pt va pa flags) (fun r s' =>
      (r = 0 ∧ s' = s ∧ ∀ p, ¬s.free p) ∨
      (r ≠ 0 ∧ WellFormed s' pt ∧ (∀ u < 2 ^ 32, entryAt s'.bytes pt u =
        if u / 4096 = va / 4096 then pa2pte pa ||| flags ||| PTE_V else entryAt s.bytes pt u) ∧
        (∀ j, Few s'.free j → Few s.free (j + 1)) ∧ Extends s s' pt)) s := by
  refine wp_mappage hva' hpa' ((findPteAlloc_lookup h hva).mono fun a s₁ ha => ?_)
  rcases ha with ⟨rfl, hfull⟩ | ⟨hne, rfl, h₁, he, hfew, hext⟩
  · exact .inl ⟨rfl, .inl ⟨rfl, hfull⟩⟩
  · have hold : s₁.bytes.word (pteAddr s₁.bytes pt va) = entryAt s.bytes pt va := by
      rw [← he va hva, entryAt, if_neg hne]
    refine .inr ⟨hne, by rw [hold]; exact hfree,
      .inr ⟨hne, h₁.store hva hne _, fun u hu => ?_, hfew, ?_⟩⟩
    · rw [Mem.bytes_mapBytes, h₁.entryAt_store hva hne (mkPte_lt hpa hf) hu, he u hu]
    · rw [Extends, Mem.bytes_mapBytes, tablePages_congr fun i hi => h₁.root_store hva hne _ hi]
      exact ⟨hext.1.trans (h₁.frame_store hva hne _), hext.2⟩

/-- **`mappage` adds one page to the map.**  For every well-formed table and every page that
it does not map: if `mappage` returns non-NULL, looking the page up gives what was asked for,
every other lookup is what it was, and the table is well formed; if it returns NULL, there was
no memory and nothing has changed. -/
theorem mappage_inserts {pa flags : Nat} (h : WellFormed s pt) (hva : va < 2 ^ 32)
    (hva' : va % PAGE_SIZE = 0) (hpa : pa < 2 ^ 32) (hpa' : pa % PAGE_SIZE = 0)
    (hf : flags < 2 ^ 10) (hfree : lookup s.bytes pt va = none) :
    ∃ r s', mappage pt va pa flags s = .ok (r, s') ∧
      (r ≠ 0 → lookup s'.bytes pt va = some (pa, flags ||| PTE_V) ∧
        (∀ u < 2 ^ 32, u / PAGE_SIZE ≠ va / PAGE_SIZE →
          lookup s'.bytes pt u = lookup s.bytes pt u) ∧
        WellFormed s' pt) ∧
      (r = 0 → s' = s ∧ ∀ p, ¬s.free p) := by
  obtain ⟨r, s', hrun, hr⟩ := wp_iff.1
    (mappage_entry h hva hva' hpa hpa' (hf.trans (by decide)) (decode_eq_none.1 hfree))
  refine ⟨r, s', hrun, fun hne => ?_, fun hz => ?_⟩
  · obtain ⟨-, h', he, -⟩ := hr.resolve_left fun hz => hne hz.1
    refine ⟨?_, fun u hu hne => ?_, h'⟩
    · rw [lookup, he va hva, if_pos rfl, decode_mkPte hpa hpa' hf]
    · rw [lookup, lookup, he u hu, if_neg hne]
  · obtain ⟨-, hs, hfull⟩ := hr.resolve_right fun hne => hne.1 hz
    exact ⟨hs, hfull⟩

/-- In the table of a new process, the first page of the image is mapped. -/
theorem mappage_inserts_tiny : ∃ (pt : Nat) (s s' : Mem tinyLayout) (r : Nat),
    initUserpt (Mem.fresh tinyLayout) = .ok (pt, s) ∧ lookup s.bytes pt USER_BASE = none ∧
      mappage pt USER_BASE 0x87FFF000 (PTE_R ||| PTE_U) s = .ok (r, s') ∧ r ≠ 0 ∧
      lookup s'.bytes pt USER_BASE = some (0x87FFF000, PTE_R ||| PTE_U ||| PTE_V) := by
  obtain ⟨pt, s, hpt, hw, hfew, hl⟩ := initUserpt_tiny
  have hnone : lookup s.bytes pt USER_BASE = none := by
    rw [hl _ (by decide), kernelPte_low (.inl (by decide))]
    rfl
  obtain ⟨r, s', hrun, hok, hnull⟩ := @mappage_inserts _ s pt USER_BASE 0x87FFF000
    (PTE_R ||| PTE_U) hw (by decide) (by decide) (by decide) (by decide) (by decide) hnone
  have hne : r ≠ 0 := fun hz => hfew ((Few.none (hnull hz).2).mono (Nat.zero_le _))
  exact ⟨pt, s, s', r, hpt, hnone, hrun, hne, (hok hne).1⟩

/-! ## Ranges -/

section Range

variable {v q f n : Nat}

/-- How far page `u` lies after page `v`, round the end of the address space. -/
def after (v u : Nat) : Nat := (u + 2 ^ 20 - v) % 2 ^ 20

/-- **`mappages` adds a range of pages**, which may go round the end of the address space, or
stops in the middle of it with no memory left. -/
theorem mappages_inserts (h : WellFormed s pt) (hv : v < 2 ^ 20) (hq : q < 2 ^ 20) (hn : 0 < n)
    (hn' : n < 2 ^ 20) (hf : f < 2 ^ 32)
    (hfree : ∀ u < 2 ^ 32, after v (u / 4096) < n → entryAt s.bytes pt u % 2 = 0) :
    wp (mappages pt (v * 4096) (q * 4096) (n * 4096) f) (fun r s' => (r = -1 ∧ Few s.free (n - 1)) ∨
      (r = 0 ∧ WellFormed s' pt ∧ ∀ u < 2 ^ 32, entryAt s'.bytes pt u =
        if after v (u / 4096) < n then
          pa2pte ((q + after v (u / 4096)) % 2 ^ 20 * 4096) ||| f ||| PTE_V
        else entryAt s.bytes pt u)) s := by
  -- after `k` rounds the first `k` pages are mapped
  refine (mappages_rule (E := fun k _ => Few s.free k) (I := fun k s₁ => WellFormed s₁ pt ∧
      (∀ j, Few s₁.free j → Few s.free (j + k)) ∧ ∀ u < 2 ^ 32, entryAt s₁.bytes pt u =
      if after v (u / 4096) < k then pa2pte ((q + after v (u / 4096)) % 2 ^ 20 * 4096) ||| f ||| PTE_V
      else entryAt s.bytes pt u) hv hq hn hn'
    ⟨h, fun _ => id, fun u _ => by rw [if_neg (by omega)]⟩ fun k hk s₁ hI => ?_).mono fun r s' hr => ?_
  · obtain ⟨h₁, hfew, he⟩ := hI
    have hcurr : (v + k) % 2 ^ 20 < 2 ^ 20 := Nat.mod_lt _ (by decide)
    have hpa : (q + k) % 2 ^ 20 < 2 ^ 20 := Nat.mod_lt _ (by decide)
    have hat : after v ((v + k) % 2 ^ 20 * 4096 / 4096) = k := by
      unfold after
      omega
    have hfr : entryAt s₁.bytes pt ((v + k) % 2 ^ 20 * 4096) % 2 = 0 := by
      rw [he _ (by omega), hat, if_neg (by omega)]
      exact hfree _ (by omega) (by omega)
    refine (mappage_entry h₁ (by omega) (by omega) (by omega) (by omega) hf hfr).mono
      fun a s₂ ha => ?_
    rcases ha with ⟨rfl, rfl, hfull⟩ | ⟨hne, h₂, he₂, hfew₂, -⟩
    · exact .inl ⟨rfl, (hfew 0 (.none hfull)).mono (by omega)⟩
    · refine .inr ⟨hne, h₂, fun j hj => (hfew _ (hfew₂ j hj)).mono (by omega), fun u hu => ?_⟩
      rw [he₂ u hu, he u hu]
      by_cases huk : u / 4096 = (v + k) % 2 ^ 20 * 4096 / 4096
      · rw [if_pos huk, huk, hat, if_pos (by omega)]
      · have hne : after v (u / 4096) ≠ k := by
          unfold after
          omega
        rw [if_neg huk]
        exact if_congr (by omega) rfl rfl
  · rcases hr with ⟨rfl, k, hk, hfew⟩ | ⟨rfl, h₁, -, he⟩
    · exact .inl ⟨rfl, hfew.mono (by omega)⟩
    · exact .inr ⟨rfl, h₁, he⟩

/-- A lookup depends on the page only. -/
theorem lookup_page {m : Bytes} (hva : va < 2 ^ 32) (hu : u < 2 ^ 32)
    (he : u / 4096 = va / 4096) : lookup m pt u = lookup m pt va := by
  rw [lookup, lookup, entryAt, entryAt, pteAddr_eq hu, pteAddr_eq hva, he]

/-- `uvmunmap` without `free` takes one page out of the map. -/
theorem unmapPage_lookup (h : WellFormed s pt) (hva : va < 2 ^ 32) :
    wp (unmapPage pt va false) (fun _ s' => WellFormed s' pt ∧ ∀ u < 2 ^ 32,
      lookup s'.bytes pt u = if u / 4096 = va / 4096 then none else lookup s.bytes pt u) s := by
  -- where there is nothing to take out
  have hsame : lookup s.bytes pt va = none → ∀ u < 2 ^ 32, lookup s.bytes pt u =
      if u / 4096 = va / 4096 then none else lookup s.bytes pt u := by
    intro hnone u hu
    split
    · next he => rw [lookup_page hva hu he, hnone]
    · rfl
  rw [wp_unmapPage]
  by_cases hz : entryAt s.bytes pt va % 2 = 0
  · rw [if_pos hz]
    exact ⟨h, hsame (decode_eq_none.2 hz)⟩
  · have ha : pteAddr s.bytes pt va ≠ 0 := fun ha => hz (by rw [entryAt, if_pos ha])
    rw [if_neg hz, if_neg (by decide), wp_pure]
    refine ⟨h.store hva ha 0, fun u hu => ?_⟩
    rw [lookup, Mem.bytes_mapBytes, h.entryAt_store hva ha (by decide) hu]
    split
    · rfl
    · rfl

/-- **`uvmunmap` takes a range out of the map**, as long as the range ends before the end of
the address space. -/
theorem uvmunmap_erases (h : WellFormed s pt) (hvn : v + n < 2 ^ 20) :
    wp (uvmunmap pt (v * 4096) (n * 4096) false) (fun _ s' => WellFormed s' pt ∧ ∀ u < 2 ^ 32,
      lookup s'.bytes pt u =
        if v ≤ u / 4096 ∧ u / 4096 < v + n then none else lookup s.bytes pt u) s := by
  refine uvmunmap_rule (I := fun k s₁ => WellFormed s₁ pt ∧ ∀ u < 2 ^ 32, lookup s₁.bytes pt u =
      if v ≤ u / 4096 ∧ u / 4096 < v + k then none else lookup s.bytes pt u) hvn
    ⟨h, fun u _ => by rw [if_neg (by omega)]⟩ fun k hk s₁ hI => ?_
  obtain ⟨h₁, he⟩ := hI
  refine (unmapPage_lookup h₁ (by omega)).mono fun _ s₂ h₂ => ⟨h₂.1, fun u hu => ?_⟩
  rw [h₂.2 u hu, he u hu]
  by_cases huk : u / 4096 = (v + k) * 4096 / 4096
  · rw [if_pos huk, if_pos (by omega)]
  · rw [if_neg huk]
    exact if_congr (by omega) rfl rfl

/-- Where the end of the range has wrapped, `uvmunmap` does nothing. -/
theorem uvmunmap_wrapped {size : Nat} {free : Bool} (hva : va < 2 ^ 32) (hs : size < 2 ^ 32)
    (hva' : va % PAGE_SIZE = 0) (hs' : size % PAGE_SIZE = 0) (hw : 2 ^ 32 ≤ va + size) :
    uvmunmap pt va size free s = .ok ((), s) := by
  have h : wp (uvmunmap pt va size free) (fun _ s' => s' = s) s := by
    unfold uvmunmap unmapLoop
    rw [if_neg (by omega)]
    refine wp_loop (fun curr s' => curr = va ∧ s' = s) (fun _ => 0) ?_ ⟨rfl, rfl⟩ (by decide)
    rintro _ _ ⟨rfl, rfl⟩
    rw [if_neg (by omega), wp_pure]
  obtain ⟨_, _, hr, rfl⟩ := wp_iff.1 h
  exact hr

end Range

/-- **`uvmunmap` undoes `mappages` exactly where the range ends before the end of the address
space**: for any other range it does nothing.  `mappages` itself maps a range that reaches the
end, or goes round it, like any other; the page that it maps is the one asked for exactly when
`flags` has no bits in the way, in particular when it holds flag bits only. -/
theorem uvmunmap_inverse {pa size flags : Nat} (h : WellFormed s pt) (hva : va < 2 ^ 32)
    (hva' : va % PAGE_SIZE = 0) (hpa : pa < 2 ^ 32) (hpa' : pa % PAGE_SIZE = 0)
    (hs : size < 2 ^ 32) (hs' : size % PAGE_SIZE = 0) (hs0 : size ≠ 0) (hf : flags < 2 ^ 32)
    (hfree : ∀ i < size / PAGE_SIZE, lookup s.bytes pt ((va + i * PAGE_SIZE) % 2 ^ 32) = none) :
    ∃ r s₁, mappages pt va pa size flags s = .ok (r, s₁) ∧ (r = 0 →
      (flags < 2 ^ 10 → ∀ i < size / PAGE_SIZE,
        lookup s₁.bytes pt ((va + i * PAGE_SIZE) % 2 ^ 32) =
          some ((pa + i * PAGE_SIZE) % 2 ^ 32, flags ||| PTE_V)) ∧
      (∀ i < size / PAGE_SIZE, (∃ fl, lookup s₁.bytes pt ((va + i * PAGE_SIZE) % 2 ^ 32) =
        some ((pa + i * PAGE_SIZE) % 2 ^ 32, fl)) ↔ FlagsFit flags ((pa + i * PAGE_SIZE) % 2 ^ 32)) ∧
      (∀ u < 2 ^ 32, (∀ i < size / PAGE_SIZE,
        u / PAGE_SIZE ≠ (va + i * PAGE_SIZE) % 2 ^ 32 / PAGE_SIZE) →
          lookup s₁.bytes pt u = lookup s.bytes pt u) ∧
      ∃ s₂, uvmunmap pt va size false s₁ = .ok ((), s₂) ∧
        ((∀ u < 2 ^ 32, lookup s₂.bytes pt u = lookup s.bytes pt u) ↔ va + size < 2 ^ 32)) := by
  obtain ⟨v, hv, rfl⟩ : ∃ v, v < 2 ^ 20 ∧ va = v * 4096 :=
    ⟨va / 4096, by omega, by simp only [PAGE_SIZE] at hva'; omega⟩
  obtain ⟨q, hq, rfl⟩ : ∃ q, q < 2 ^ 20 ∧ pa = q * 4096 :=
    ⟨pa / 4096, by omega, by simp only [PAGE_SIZE] at hpa'; omega⟩
  obtain ⟨n, hn, rfl⟩ : ∃ n, n < 2 ^ 20 ∧ size = n * 4096 :=
    ⟨size / 4096, by omega, by simp only [PAGE_SIZE] at hs'; omega⟩
  clear hpa hpa'
  simp only [PAGE_SIZE, Nat.mul_div_cancel _ (show 0 < 4096 by decide)] at hfree hs0 ⊢
  -- page `i` of the range, and the other way round
  have hat : ∀ i < n, after v ((v * 4096 + i * 4096) % 2 ^ 32 / 4096) = i := by
    intro i hi
    unfold after
    omega
  have hof : ∀ u < 2 ^ 32, u / 4096 =
      (v * 4096 + after v (u / 4096) * 4096) % 2 ^ 32 / 4096 := by
    intro u hu
    unfold after
    omega
  have hnone : ∀ u < 2 ^ 32, after v (u / 4096) < n → lookup s.bytes pt u = none := by
    intro u hu hin
    rw [lookup_page (Nat.mod_lt _ (by decide)) hu (hof u hu)]
    exact hfree _ hin
  obtain ⟨r, s₁, hrun, hr⟩ := wp_iff.1 (mappages_inserts h hv hq (by omega) hn hf
    fun u hu hin => decode_eq_none.1 (hnone u hu hin))
  refine ⟨r, s₁, hrun, fun hz => ?_⟩
  obtain ⟨-, h₁, he⟩ := hr.resolve_left fun hm => by omega
  have hother : ∀ u < 2 ^ 32, ¬after v (u / 4096) < n →
      lookup s₁.bytes pt u = lookup s.bytes pt u := by
    intro u hu hout
    rw [lookup, lookup, he u hu, if_neg hout]
  have hpage : ∀ i < n, lookup s₁.bytes pt ((v * 4096 + i * 4096) % 2 ^ 32) =
      decode (pa2pte ((q * 4096 + i * 4096) % 2 ^ 32) ||| flags ||| PTE_V) := by
    intro i hi
    rw [lookup, he _ (Nat.mod_lt _ (by decide)), hat i hi, if_pos hi]
    congr 4
    omega
  have hpa : ∀ i, (q * 4096 + i * 4096) % 2 ^ 32 < 2 ^ 32 ∧
      (q * 4096 + i * 4096) % 2 ^ 32 % 4096 = 0 := fun i => by omega
  refine ⟨fun hf' i hi => ?_, fun i hi => ?_, fun u hu hout => ?_, ?_⟩
  · rw [hpage i hi, decode_mkPte (hpa i).1 (hpa i).2 hf']
  · rw [hpage i hi]
    exact decode_page_iff (hpa i).1 (hpa i).2
  · exact hother u hu fun hin => hout _ hin (hof u hu)
  by_cases hend : v * 4096 + n * 4096 < 2 ^ 32
  · obtain ⟨_, s₂, hrun₂, -, he₂⟩ := wp_iff.1 (uvmunmap_erases (v := v) (n := n) h₁ (by omega))
    refine ⟨s₂, hrun₂, iff_of_true (fun u hu => ?_) hend⟩
    rw [he₂ u hu]
    split
    · exact (hnone u hu (by unfold after; omega)).symm
    · exact hother u hu (by unfold after; omega)
  · -- nothing is undone, and the first page of the range was not mapped before
    refine ⟨s₁, uvmunmap_wrapped hva hs hva' hs' (by omega), iff_of_false (fun hback => ?_) hend⟩
    have hlt := Nat.mod_lt (v * 4096 + 0 * 4096) (show 0 < 2 ^ 32 by decide)
    have hmapped := hpage 0 (by omega)
    rw [hback _ hlt, hfree 0 (by omega)] at hmapped
    exact absurd (decode_eq_none.1 hmapped.symm) (by rw [PTE_V, or_one_mod]; decide)

/-- With enough memory `mappages` succeeds. -/
theorem mappages_roomy {v q n f : Nat} {r : Int} {s₁ : Mem L} (h : WellFormed s pt)
    (hv : v < 2 ^ 20) (hq : q < 2 ^ 20) (hn : 0 < n) (hn' : n < 2 ^ 20) (hf : f < 2 ^ 32)
    (hfree : ∀ u < 2 ^ 32, after v (u / 4096) < n → lookup s.bytes pt u = none)
    (hfew : ¬Few s.free n) (hrun : mappages pt (v * 4096) (q * 4096) (n * 4096) f s = .ok (r, s₁)) :
    r = 0 := by
  rcases (mappages_inserts h hv hq hn hn' hf fun u hu hin =>
    decode_eq_none.1 (hfree u hu hin)).of_run hrun with ⟨-, hno⟩ | ⟨hr, -⟩
  · exact absurd (hno.mono (by omega)) hfew
  · exact hr

/-- Two pages of the image, mapped and unmapped again. -/
theorem uvmunmap_inverse_tiny : ∃ (pt : Nat) (s s₁ s₂ : Mem tinyLayout),
    initUserpt (Mem.fresh tinyLayout) = .ok (pt, s) ∧
      mappages pt USER_BASE 0x87FFE000 0x2000 PTE_R s = .ok (0, s₁) ∧
      lookup s₁.bytes pt 0x2000 = some (0x87FFF000, PTE_R ||| PTE_V) ∧
      uvmunmap pt USER_BASE 0x2000 false s₁ = .ok ((), s₂) ∧
      ∀ u < 2 ^ 32, lookup s₂.bytes pt u = lookup s.bytes pt u := by
  obtain ⟨pt, s, hpt, hw, hfew, hl⟩ := initUserpt_tiny
  have hnone : ∀ u < 2 ^ 32, after 1 (u / 4096) < 2 → lookup s.bytes pt u = none := by
    intro u hu hin
    unfold after at hin
    rw [hl u hu, kernelPte_low (.inl (by omega))]
    rfl
  obtain ⟨r, s₁, hrun, hok⟩ := @uvmunmap_inverse _ s pt USER_BASE 0x87FFE000
    0x2000 PTE_R hw (by decide) (by decide) (by decide) (by decide) (by decide)
    (by decide) (by decide) (by decide) fun i hi => hnone _ (Nat.mod_lt _ (by decide)) (by
      simp only [after, USER_BASE, PAGE_SIZE] at hi ⊢
      omega)
  obtain rfl : r = 0 := mappages_roomy (v := 1) (q := 0x87FFE) (n := 2) hw (by decide) (by decide)
    (by decide) (by decide) (by decide) hnone (fun hf => hfew (hf.mono (by decide))) hrun
  obtain ⟨hmap, -, -, s₂, hrun₂, hback⟩ := hok rfl
  exact ⟨pt, s, s₁, s₂, hpt, hrun, hmap (by decide) 1 (by decide), hrun₂, hback.2 (by decide)⟩

/-- **The last page of the address space stays mapped.**  `mappages` maps it; the end of the
range has wrapped to 0, and `uvmunmap` finds nothing below it. -/
theorem uvmunmap_wraps : ∃ (pt : Nat) (s s₁ s₂ : Mem tinyLayout),
    WellFormed s pt ∧ lookup s.bytes pt 0xFFFFF000 = none ∧
      mappages pt 0xFFFFF000 0x87FFF000 PAGE_SIZE PTE_R s = .ok (0, s₁) ∧
      uvmunmap pt 0xFFFFF000 PAGE_SIZE false s₁ = .ok ((), s₂) ∧
      lookup s₂.bytes pt 0xFFFFF000 = some (0x87FFF000, PTE_R ||| PTE_V) := by
  obtain ⟨pt, s, -, hw, hfew, hl⟩ := initUserpt_tiny
  have hnone : ∀ u < 2 ^ 32, after 0xFFFFF (u / 4096) < 1 → lookup s.bytes pt u = none := by
    intro u hu hin
    have hu' : u / 4096 = 0xFFFFF := by
      unfold after at hin
      omega
    rw [hl u hu, hu']
    decide
  obtain ⟨r, s₁, hrun, hr⟩ := wp_iff.1 (mappages_inserts (v := 0xFFFFF) (q := 0x87FFF) (n := 1)
    (f := PTE_R) hw (by decide) (by decide) (by decide) (by decide) (by decide)
    fun u hu hin => decode_eq_none.1 (hnone u hu hin))
  obtain rfl : r = 0 := mappages_roomy (v := 0xFFFFF) (q := 0x87FFF) (n := 1) hw (by decide)
    (by decide) (by decide) (by decide) (by decide) hnone (fun hf => hfew (hf.mono (by decide))) hrun
  obtain ⟨-, -, he⟩ := hr.resolve_left fun hm => by omega
  refine ⟨pt, s, s₁, s₁, hw, hnone _ (by decide) (by decide), hrun,
    uvmunmap_wrapped (by decide) (by decide) (by decide) (by decide) (by decide), ?_⟩
  rw [lookup, he _ (by decide), if_pos (by decide)]
  decide

end Wl00.Vm
