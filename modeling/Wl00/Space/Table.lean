import Wl00.Space.Walk

/-!
# Address spaces

A `Space` is what a page table in memory stands for: the page of its root, the pages
of its second-level tables, and the entry of each of the `2 ^ 20` virtual pages.
`Holds L m sp` says that the memory `m` holds the space `sp`.  The operations of
`vm.c` are then operations on spaces.

* `findPte_spec`, `findPteAlloc_spec` — `find_pte` finds the entry, and may add a table.
* `mappage_spec` — `mappage` changes one entry.
* `mappages_spec` — `mappages` changes a range of entries, or stops in the middle of
  it when there is no memory left.
-/

namespace Wl00.Vm

open Prog

variable {L : Layout} {s s' : Mem L}

/-! ## Spaces -/

/-- What a page table stands for.  Pages and virtual pages are numbers; an entry is the
word that the table holds. -/
structure Space where
  root : Nat
  tbl : Nat → Option Nat
  pte : Nat → Nat

namespace Space

/-- The pages of the table itself. -/
def tables (sp : Space) : Set Nat := {p | p = sp.root ∨ ∃ i, sp.tbl i = some p}

/-- Entry `v` becomes `w`. -/
def set (sp : Space) (v w : Nat) : Space := { sp with pte := Function.update sp.pte v w }

/-- A second-level table is added. -/
def addTable (sp : Space) (i t : Nat) : Space := { sp with tbl := Function.update sp.tbl i (some t) }

/-- `sp'` has the tables of `sp`, and perhaps more. -/
structure Grows (sp sp' : Space) : Prop where
  root : sp'.root = sp.root
  tbl : ∀ i t, sp.tbl i = some t → sp'.tbl i = some t

theorem Grows.refl (sp : Space) : Grows sp sp := ⟨rfl, fun _ _ => id⟩

theorem Grows.trans {sp sp' sp'' : Space} (h : Grows sp sp') (h' : Grows sp' sp'') :
    Grows sp sp'' := ⟨h'.root.trans h.root, fun i t ht => h'.tbl i t (h.tbl i t ht)⟩

theorem Grows.tables {sp sp' : Space} (h : Grows sp sp') : sp.tables ⊆ sp'.tables := by
  rintro p (rfl | ⟨i, hi⟩)
  · exact .inl h.root.symm
  · exact .inr ⟨i, h.tbl i p hi⟩

theorem root_mem (sp : Space) : sp.root ∈ sp.tables := .inl rfl

theorem tbl_mem {sp : Space} {i t : Nat} (h : sp.tbl i = some t) : t ∈ sp.tables := .inr ⟨i, h⟩

end Space

/-- The word that stands in the root for a second-level table. -/
def rootWord : Option Nat → Nat
  | none => 0
  | some t => t * 1024 + 1

/-- The memory `m` holds the space `sp`. -/
structure Holds (L : Layout) (m : Bytes) (sp : Space) : Prop where
  root_range : InRange L sp.root
  tbl_range : ∀ i t, sp.tbl i = some t → InRange L t ∧ i < 1024 ∧ t ≠ sp.root
  tbl_inj : ∀ i j t, sp.tbl i = some t → sp.tbl j = some t → i = j
  root_eq : ∀ i < 1024, m.word (sp.root * 4096 + 4 * i) = rootWord (sp.tbl i)
  leaf_eq : ∀ i t, sp.tbl i = some t → ∀ j < 1024, m.word (t * 4096 + 4 * j) = sp.pte (i * 1024 + j)
  no_table : ∀ v, sp.tbl (v / 1024) = none → sp.pte v = 0

namespace Holds

variable {m m' : Bytes} {sp : Space}

theorem in_range (h : Holds L m sp) : ∀ p ∈ sp.tables, InRange L p := by
  rintro p (rfl | ⟨i, hi⟩)
  · exact h.root_range
  · exact (h.tbl_range i p hi).1

/-- A space is held as long as its own pages are the same. -/
theorem congr (h : Holds L m sp) (hs : ∀ p ∈ sp.tables, SamePage m m' p) : Holds L m' sp where
  root_range := h.root_range
  tbl_range := h.tbl_range
  tbl_inj := h.tbl_inj
  root_eq i hi := by
    rw [(hs _ sp.root_mem).word (by omega)]
    exact h.root_eq i hi
  leaf_eq i t ht j hj := by
    rw [(hs _ (Space.tbl_mem ht)).word (by omega)]
    exact h.leaf_eq i t ht j hj
  no_table := h.no_table

/-- A space is held while somebody else works on pages of their own. -/
theorem frame (h : Holds L s.bytes sp) {A A' : Set Nat} (hf : Frame s s' A A')
    (hh : Held s sp.tables) (hd : ∀ p ∈ sp.tables, p ∉ A) : Holds L s'.bytes sp :=
  h.congr fun p hp => hf.same p (hh p hp) (hd p hp)

theorem leaf (h : Holds L m sp) {v t : Nat} (ht : sp.tbl (v / 1024) = some t) :
    m.word (t * 4096 + 4 * (v % 1024)) = sp.pte v := by
  rw [h.leaf_eq _ t ht _ (by omega)]
  congr 1
  omega

/-- Storing an entry of the table for page `v`. -/
theorem set (h : Holds L m sp) {v t w : Nat} (ht : sp.tbl (v / 1024) = some t)
    (hw : w < 2 ^ 32) : Holds L (m.storeWord (t * 4096 + 4 * (v % 1024)) w) (sp.set v w) where
  root_range := h.root_range
  tbl_range := h.tbl_range
  tbl_inj := h.tbl_inj
  root_eq i hi := by
    have hne := (h.tbl_range _ t ht).2.2
    rw [show (sp.set v w).root = sp.root from rfl, Bytes.word_storeWord_of_ne (by omega)]
    exact h.root_eq i hi
  leaf_eq i t' ht' j hj := by
    show _ = Function.update sp.pte v w (i * 1024 + j)
    by_cases hv : i * 1024 + j = v
    · subst hv
      obtain rfl : t = t' := by
        rw [show (i * 1024 + j) / 1024 = i by omega] at ht
        exact Option.some.inj (ht.symm.trans ht')
      rw [Function.update_self, show (i * 1024 + j) % 1024 = j by omega,
        Bytes.word_storeWord hw]
    · rw [Function.update_of_ne hv, Bytes.word_storeWord_of_ne]
      · exact h.leaf_eq i t' ht' j hj
      · by_cases htt : t = t'
        · subst htt
          obtain rfl := h.tbl_inj _ _ _ ht ht'
          omega
        · omega
  no_table u hu := by
    show Function.update sp.pte v w u = 0
    have hne : u ≠ v := by
      rintro rfl
      rw [show (sp.set u w).tbl = sp.tbl from rfl, ht] at hu
      cases hu
    rw [Function.update_of_ne hne]
    exact h.no_table u hu

/-- A new table of zeros. -/
theorem addTable (h : Holds L m sp) {i t : Nat} (hi : i < 1024) (hn : sp.tbl i = none)
    (ht : InRange L t) (hnew : t ∉ sp.tables) (hz : ∀ o < 4096, m (t * 4096 + o) = 0) :
    Holds L (m.storeWord (sp.root * 4096 + 4 * i) (t * 1024 + 1)) (sp.addTable i t) := by
  have hr : t ≠ sp.root := fun he => hnew (he ▸ sp.root_mem)
  have htl := ht.lt
  have htbl : ∀ j t', (sp.addTable i t).tbl j = some t' →
      (j = i ∧ t' = t) ∨ (j ≠ i ∧ sp.tbl j = some t') := by
    intro j t' hj
    by_cases hji : j = i
    · subst hji
      refine .inl ⟨rfl, ?_⟩
      simpa [Space.addTable] using hj.symm
    · refine .inr ⟨hji, ?_⟩
      simpa [Space.addTable, hji] using hj
  have hold : ∀ j t', sp.tbl j = some t' → t' ≠ t := by
    rintro j t' hj rfl
    exact hnew (Space.tbl_mem hj)
  refine ⟨h.root_range, ?_, ?_, ?_, ?_, ?_⟩
  · intro j t' hj
    rcases htbl j t' hj with ⟨rfl, rfl⟩ | ⟨-, hj⟩
    · exact ⟨ht, hi, hr⟩
    · exact h.tbl_range j t' hj
  · intro j k t' hj hk
    rcases htbl j t' hj with ⟨rfl, rfl⟩ | ⟨-, hj⟩
    · rcases htbl k t' hk with ⟨rfl, -⟩ | ⟨-, hk⟩
      · rfl
      · exact absurd rfl (hold k t' hk)
    · rcases htbl k t' hk with ⟨-, he⟩ | ⟨-, hk⟩
      · exact absurd he (hold j t' hj)
      · exact h.tbl_inj j k t' hj hk
  · intro j hj
    by_cases hji : j = i
    · subst hji
      show Bytes.word _ (sp.root * 4096 + 4 * j) = _
      rw [Bytes.word_storeWord (by omega)]
      simp [Space.addTable, rootWord]
    · rw [Bytes.word_storeWord_of_ne (by simp only [Space.addTable]; omega)]
      simpa [Space.addTable, hji] using h.root_eq j hj
  · intro j t' hj o ho
    have hne : t' ≠ sp.root := by
      rcases htbl j t' hj with ⟨rfl, rfl⟩ | ⟨-, hj⟩
      · exact hr
      · exact (h.tbl_range j t' hj).2.2
    rw [Bytes.word_storeWord_of_ne (by omega)]
    rcases htbl j t' hj with ⟨rfl, rfl⟩ | ⟨-, hj⟩
    · have hz4 : ∀ k < 4, m (t' * 4096 + 4 * o + k) = 0 := by
        intro k hk
        rw [Nat.add_assoc]
        exact hz _ (by omega)
      have h0 := hz4 0 (by omega)
      rw [Nat.add_zero] at h0
      rw [show (sp.addTable j t').pte = sp.pte from rfl,
        h.no_table _ (by rwa [show (j * 1024 + o) / 1024 = j by omega]), Bytes.word, h0,
        hz4 1 (by omega), hz4 2 (by omega), hz4 3 (by omega)]
      rfl
    · exact h.leaf_eq j t' hj o ho
  · intro v hv
    refine h.no_table v ?_
    by_cases hvi : v / 1024 = i
    · rw [hvi]
      exact hn
    · simpa [Space.addTable, hvi] using hv

end Holds

/-! ## `find_pte` -/

/-- The address of the entry for page `v`, or 0 where there is no table for it. -/
def Space.entry (sp : Space) (v : Nat) : Nat :=
  match sp.tbl (v / 1024) with
  | none => 0
  | some t => t * 4096 + 4 * (v % 1024)

theorem Space.entry_some {sp : Space} {v t : Nat} (h : sp.tbl (v / 1024) = some t) :
    sp.entry v = t * 4096 + 4 * (v % 1024) := by
  rw [entry, h]

theorem Space.entry_none {sp : Space} {v : Nat} (h : sp.tbl (v / 1024) = none) :
    sp.entry v = 0 := by
  rw [entry, h]

section Spec

variable {m : Bytes} {sp : Space} {va : Nat}

theorem Space.entry_ne {v : Nat} (hn : sp.entry v ≠ 0) :
    ∃ t, sp.tbl (v / 1024) = some t ∧ sp.entry v = t * 4096 + 4 * (v % 1024) := by
  cases ht : sp.tbl (v / 1024) with
  | none => exact absurd (Space.entry_none ht) hn
  | some t => exact ⟨t, rfl, Space.entry_some ht⟩

theorem Holds.entry_eq_zero (h : Holds L m sp) {v : Nat} :
    sp.entry v = 0 ↔ sp.tbl (v / 1024) = none := by
  cases ht : sp.tbl (v / 1024) with
  | none => simp [Space.entry_none ht]
  | some t =>
      have := (h.tbl_range _ t ht).1.lt
      rw [Space.entry_some ht]
      constructor
      · omega
      · intro hc
        cases hc

/-- What `find_pte` returns. -/
theorem Holds.pteAddr_eq (h : Holds L m sp) (hva : va < 2 ^ 32) :
    pteAddr m (sp.root * 4096) va = sp.entry (va / 4096) := by
  have hroot := h.root_eq (va / 4096 / 1024) (by omega)
  rw [Vm.pteAddr_eq hva, rootEntry, hroot]
  cases ht : sp.tbl (va / 4096 / 1024) with
  | none => rw [Space.entry_none ht, if_neg (by simp [rootWord])]
  | some t =>
      have hlt := (h.tbl_range _ t ht).1.lt
      rw [Space.entry_some ht, if_pos (by simp only [rootWord]; omega), pte2pa_eq, rootWord]
      omega

/-- The entry that it finds. -/
theorem Holds.entryAt_eq (h : Holds L m sp) (hva : va < 2 ^ 32) :
    entryAt m (sp.root * 4096) va = sp.pte (va / 4096) := by
  rw [entryAt, h.pteAddr_eq hva]
  split_ifs with he
  · rw [h.no_table _ (h.entry_eq_zero.1 he)]
  · obtain ⟨t, ht, heq⟩ := Space.entry_ne he
    rw [heq, h.leaf ht]

theorem findPte_spec (h : Holds L s.bytes sp) (hva : va < 2 ^ 32) :
    wp (findPte (sp.root * 4096) va false) (fun a s' => s' = s ∧ a = sp.entry (va / 4096)) s := by
  rw [wp_findPte]
  exact ⟨rfl, h.pteAddr_eq hva⟩

theorem tables_addTable {i t : Nat} (hn : sp.tbl i = none) :
    (sp.addTable i t).tables = {t} ∪ sp.tables := by
  ext p
  simp only [Space.tables, Space.addTable, Set.mem_ofPred_eq, Set.mem_union, Set.mem_singleton_iff]
  constructor
  · rintro (rfl | ⟨j, hj⟩)
    · exact .inr (.inl rfl)
    · by_cases hji : j = i
      · subst hji
        rw [Function.update_self] at hj
        exact .inl (Option.some.inj hj).symm
      · rw [Function.update_of_ne hji] at hj
        exact .inr (.inr ⟨j, hj⟩)
  · rintro (rfl | rfl | ⟨j, hj⟩)
    · exact .inr ⟨i, Function.update_self ..⟩
    · exact .inl rfl
    · refine .inr ⟨j, ?_⟩
      rw [Function.update_of_ne, hj]
      rintro rfl
      rw [hn] at hj
      cases hj

theorem findPteAlloc_spec (h : Holds L s.bytes sp) (hh : Held s sp.tables) (hva : va < 2 ^ 32) :
    wp (findPte (sp.root * 4096) va true) (fun a s' =>
      (a = 0 ∧ s' = s ∧ ∀ p, ¬s.free p) ∨
      (a ≠ 0 ∧ ∃ sp', a = sp'.entry (va / 4096) ∧ sp.Grows sp' ∧ sp'.pte = sp.pte ∧
        Holds L s'.bytes sp' ∧ Frame s s' sp.tables sp'.tables)) s := by
  refine wp_findPteAlloc hva (fun hv => ?_) (fun hfull => .inl ⟨rfl, rfl, hfull⟩) fun t s₁ hv hnew =>
    .inr ?_ <;> rw [rootEntry, h.root_eq _ (by omega)] at hv
  · refine .inr ⟨?_, sp, h.pteAddr_eq hva, .refl sp, rfl, h, .refl hh⟩
    rw [h.pteAddr_eq hva, Ne, h.entry_eq_zero]
    intro hn
    rw [hn] at hv
    cases hv
  · have ht : sp.tbl (va / 4096 / 1024) = none := by
      cases ht : sp.tbl (va / 4096 / 1024) with
      | none => rfl
      | some t =>
          rw [ht, rootWord] at hv
          omega
    have htr := hnew.free.inRange
    have htl := htr.lt
    have hf₃ := hnew.frame.widen hh (Set.empty_subset _)
    rw [Set.sdiff_empty, ← tables_addTable ht] at hf₃
    have hf₄ := hf₃.trans ((frame_store (j := 4 * (va / 4096 / 1024)) (w := t * 1024 + 1)
      (hf₃.held' sp.root (Space.root_mem _)) (by omega)).widen_self hf₃.held'
      (Set.singleton_subset_iff.2 (Space.root_mem _)))
    refine ⟨by omega, sp.addTable (va / 4096 / 1024) t, ?_, ⟨rfl, fun i t' hi => ?_⟩, rfl, ?_, hf₄⟩
    · rw [Space.entry_some (Function.update_self ..)]
    · show Function.update sp.tbl _ _ i = _
      rw [Function.update_of_ne, hi]
      rintro rfl
      rw [ht] at hi
      cases hi
    · exact (h.frame hnew.frame hh fun p _ => id).addTable (by omega) ht htr
        (fun hm => hh t hm hnew.free) hnew.zeroed

/-! ## `mappage` and `mappages` -/

variable {v q f n : Nat}

/-- **`mappage` changes one entry**, or finds no memory for a table. -/
theorem mappage_spec (h : Holds L s.bytes sp) (hh : Held s sp.tables) (hv : v < 2 ^ 20)
    (hq : q < 2 ^ 20) (hf : f < 1024) (hfree : sp.pte v % 2 = 0) :
    wp (mappage (sp.root * 4096) (v * 4096) (q * 4096) f) (fun a s' =>
      (a = 0 ∧ s' = s ∧ ∀ p, ¬s.free p) ∨
      (a ≠ 0 ∧ ∃ sp', sp.Grows sp' ∧ sp'.pte = Function.update sp.pte v (q * 1024 + (f ||| 1)) ∧
        Holds L s'.bytes sp' ∧ Frame s s' sp.tables sp'.tables)) s := by
  refine wp_mappage (Nat.mul_mod_left ..) (Nat.mul_mod_left ..) ?_
  refine wp.mono (findPteAlloc_spec h hh (by omega)) fun a s₁ ha => ?_
  rcases ha with ⟨rfl, hfull⟩ | ⟨hne, sp₁, rfl, hg, hp, h₁, hf₁⟩
  · exact .inl ⟨rfl, .inl ⟨rfl, hfull⟩⟩
  · rw [Nat.mul_div_cancel _ (by decide)] at hne ⊢
    obtain ⟨t, ht, he⟩ := Space.entry_ne hne
    have hlt : f ||| 1 < 2 ^ 10 := Nat.or_lt_two_pow hf (by decide)
    have hst := (frame_store (s := s₁) (p := t) (j := 4 * (v % 1024))
      (w := q * 1024 + (f ||| 1)) (hf₁.held' t (Space.tbl_mem ht)) (by omega)).widen_self
      hf₁.held' (Set.singleton_subset_iff.2 (Space.tbl_mem ht))
    refine .inr ⟨hne, ?_, .inr ⟨hne, sp₁.set v (q * 1024 + (f ||| 1)), ⟨hg.root, hg.tbl⟩, ?_, ?_⟩⟩
    · rw [he, h₁.leaf ht, hp]
      exact hfree
    · rw [Space.set, hp]
    · rw [mkPte_eq hf, he]
      exact ⟨h₁.set ht (by omega), hf₁.trans hst⟩

/-- The entries after the `n` pages from `v` on have been mapped to those from `q` on. -/
def mapRange (pte : Nat → Nat) (v q f n : Nat) : Nat → Nat := fun u =>
  if v ≤ u ∧ u < v + n then (q + (u - v)) * 1024 + (f ||| 1) else pte u

theorem mapRange_zero (pte : Nat → Nat) : mapRange pte v q f 0 = pte := by
  funext u
  rw [mapRange, if_neg (by omega)]

theorem mapRange_succ (pte : Nat → Nat) : mapRange pte v q f (n + 1) =
    Function.update (mapRange pte v q f n) (v + n) ((q + n) * 1024 + (f ||| 1)) := by
  funext u
  by_cases hu : u = v + n
  · subst hu
    rw [Function.update_self, mapRange, if_pos (by omega), Nat.add_sub_cancel_left]
  · rw [Function.update_of_ne hu, mapRange, mapRange]
    congr 1
    exact propext (by omega)

/-- **`mappages` maps a range**, or stops in the middle of it with no page left. -/
theorem mappages_spec (h : Holds L s.bytes sp) (hh : Held s sp.tables) (hn : 0 < n)
    (hv : v + n < 2 ^ 20) (hq : q + n < 2 ^ 20) (hf : f < 1024)
    (hfree : ∀ u, v ≤ u → u < v + n → sp.pte u % 2 = 0) :
    wp (mappages (sp.root * 4096) (v * 4096) (q * 4096) (n * 4096) f) (fun r s' =>
      ∃ sp' k, sp.Grows sp' ∧ sp'.pte = mapRange sp.pte v q f k ∧ Holds L s'.bytes sp' ∧
        Frame s s' sp.tables sp'.tables ∧
        ((r = 0 ∧ k = n) ∨ (r = -1 ∧ k < n ∧ ∀ p, ¬s'.free p))) s := by
  -- after `k` rounds the first `k` pages are mapped
  let I : Nat → Mem L → Prop := fun k s₁ => ∃ sp₁, sp.Grows sp₁ ∧
    sp₁.pte = mapRange sp.pte v q f k ∧ Holds L s₁.bytes sp₁ ∧ Frame s s₁ sp.tables sp₁.tables
  refine (mappages_rule (I := I) (E := fun k s₁ => I k s₁ ∧ ∀ p, ¬s₁.free p) (by omega) (by omega) hn
    (by omega) ⟨sp, .refl sp, (mapRange_zero _).symm, h, .refl hh⟩ fun k hk s₁ hI => ?_).mono
    fun r s' hr => ?_
  · obtain ⟨sp₁, hg, hp, h₁, hf₁⟩ := id hI
    have hfr : sp₁.pte (v + k) % 2 = 0 := by
      rw [hp, mapRange, if_neg (by omega)]
      exact hfree _ (by omega) (by omega)
    rw [Nat.mod_eq_of_lt (by omega), Nat.mod_eq_of_lt (by omega), ← hg.root]
    refine (mappage_spec h₁ hf₁.held' (by omega) (by omega) hf hfr).mono fun a s₂ ha => ?_
    rcases ha with ⟨rfl, rfl, hfull⟩ | ⟨hne, sp₂, hg₂, hp₂, h₂, hf₂⟩
    · exact .inl ⟨rfl, hI, hfull⟩
    · exact .inr ⟨hne, sp₂, hg.trans hg₂, by rw [hp₂, hp, mapRange_succ], h₂, hf₁.trans hf₂⟩
  · rcases hr with ⟨rfl, k, hk, ⟨sp₁, hg, hp, h₁, hf₁⟩, hfull⟩ | ⟨rfl, sp₁, hg, hp, h₁, hf₁⟩
    · exact ⟨sp₁, k, hg, hp, h₁, hf₁, .inr ⟨rfl, hk, hfull⟩⟩
    · exact ⟨sp₁, n, hg, hp, h₁, hf₁, .inl ⟨rfl, rfl⟩⟩

/-- A table has at most 1025 pages. -/
theorem Holds.tables_card {m : Bytes} (h : Holds L m sp) :
    ∃ G : Finset Nat, G.card ≤ 1025 ∧ ∀ p ∈ sp.tables, p ∈ G := by
  refine ⟨insert sp.root ((Finset.range 1024).image fun i => (sp.tbl i).getD 0), ?_, ?_⟩
  · refine (Finset.card_insert_le _ _).trans ?_
    have := Finset.card_image_le (s := Finset.range 1024) (f := fun i => (sp.tbl i).getD 0)
    rw [Finset.card_range] at this
    omega
  · rintro p (rfl | ⟨i, hi⟩)
    · exact Finset.mem_insert_self _ _
    · refine Finset.mem_insert_of_mem (Finset.mem_image.2 ⟨i, ?_, by rw [hi]; rfl⟩)
      exact Finset.mem_range.2 (h.tbl_range i p hi).2.1

end Spec

end Wl00.Vm
