import Mathlib.Order.Interval.Set.Basic
import Wl00.Space.Kernel

/-!
# Mapping and unmapping user pages

A space owns the pages behind a set `D` of its virtual pages if those pages are in
use, are different from each other and are no tables.  Each specification here names
only the pages a function works on, so that whatever else a space maps is left alone
by the frame rule.

* `uvmunmap_spec` — `uvmunmap` gives back the pages behind a range.
* `uvmfree_spec` — `uvmfree` gives back a whole space.
* `uvmalloc_spec` — `uvmalloc` maps a range to pages of zeros, or maps nothing.
-/

namespace Wl00.Vm

open Prog

variable {L : Layout} {s s' : Mem L} {sp : Space} {D E : Set Nat}

/-! ## Pages behind virtual pages -/

/-- The page behind virtual page `v`. -/
def Space.page (sp : Space) (v : Nat) : Nat := sp.pte v / 1024

/-- The pages behind the virtual pages `D`. -/
def Space.frames (sp : Space) (D : Set Nat) : Set Nat := {p | ∃ v ∈ D, sp.page v = p}

/-- `sp` maps the virtual pages `D` to pages of its own. -/
structure Owns (L : Layout) (sp : Space) (D : Set Nat) : Prop where
  valid : ∀ v ∈ D, sp.pte v % 2 = 1
  range : ∀ v ∈ D, InRange L (sp.page v)
  apart : ∀ v ∈ D, sp.page v ∉ sp.tables
  inj : ∀ v ∈ D, ∀ u ∈ D, sp.page v = sp.page u → v = u

namespace Owns

theorem subset (h : Owns L sp D) (hE : E ⊆ D) : Owns L sp E where
  valid v hv := h.valid v (hE hv)
  range v hv := h.range v (hE hv)
  apart v hv := h.apart v (hE hv)
  inj v hv u hu := h.inj v (hE hv) u (hE hu)

/-- Only the entries of `D` and the tables matter. -/
theorem congr {sp' : Space} (h : Owns L sp D) (hp : ∀ v ∈ D, sp'.pte v = sp.pte v)
    (ht : ∀ v ∈ D, sp.page v ∉ sp'.tables) : Owns L sp' D where
  valid v hv := by
    rw [hp v hv]
    exact h.valid v hv
  range v hv := by
    rw [Space.page, hp v hv]
    exact h.range v hv
  apart v hv := by
    rw [Space.page, hp v hv]
    exact ht v hv
  inj v hv u hu := by
    rw [Space.page, Space.page, hp v hv, hp u hu]
    exact h.inj v hv u hu

theorem lt (h : Owns L sp D) {v : Nat} (hv : v ∈ D) :
    0x80002 ≤ sp.page v ∧ sp.page v < 0x88000 := (h.range v hv).lt

theorem pte2pa (h : Owns L sp D) {v : Nat} (hv : v ∈ D) :
    Vm.pte2pa (sp.pte v) = sp.page v * 4096 := by
  have := h.lt hv
  rw [pte2pa_eq, Space.page] at *
  omega

theorem empty (sp : Space) : Owns L sp ∅ where
  valid _ hv := hv.elim
  range _ hv := hv.elim
  apart _ hv := hv.elim
  inj _ hv := hv.elim

theorem singleton {v : Nat} (hv : sp.pte v % 2 = 1) (hr : InRange L (sp.page v))
    (ht : sp.page v ∉ sp.tables) : Owns L sp {v} where
  valid := by
    rintro _ rfl
    exact hv
  range := by
    rintro _ rfl
    exact hr
  apart := by
    rintro _ rfl
    exact ht
  inj := by
    rintro _ rfl _ rfl _
    rfl

theorem union (h : Owns L sp D) (h' : Owns L sp E) (hd : ∀ v ∈ D, sp.page v ∉ sp.frames E) :
    Owns L sp (D ∪ E) where
  valid v hv := hv.elim (h.valid v) (h'.valid v)
  range v hv := hv.elim (h.range v) (h'.range v)
  apart v hv := hv.elim (h.apart v) (h'.apart v)
  inj := by
    rintro v (hv | hv) u (hu | hu) he
    · exact h.inj v hv u hu he
    · exact absurd ⟨u, hu, he.symm⟩ (hd v hv)
    · exact absurd ⟨v, hv, he⟩ (hd u hu)
    · exact h'.inj v hv u hu he

end Owns

namespace Space

theorem frames_empty (sp : Space) : sp.frames ∅ = ∅ := by
  ext p
  simp [frames]

theorem frames_singleton (sp : Space) (v : Nat) : sp.frames {v} = {sp.page v} := by
  ext p
  simp [frames, eq_comm]

theorem frames_union (sp : Space) (D E : Set Nat) :
    sp.frames (D ∪ E) = sp.frames D ∪ sp.frames E := by
  ext p
  constructor
  · rintro ⟨v, hv | hv, rfl⟩
    · exact .inl ⟨v, hv, rfl⟩
    · exact .inr ⟨v, hv, rfl⟩
  · rintro (⟨v, hv, rfl⟩ | ⟨v, hv, rfl⟩)
    · exact ⟨v, .inl hv, rfl⟩
    · exact ⟨v, .inr hv, rfl⟩

theorem frames_mono (hE : E ⊆ D) : sp.frames E ⊆ sp.frames D := by
  rintro p ⟨v, hv, rfl⟩
  exact ⟨v, hE hv, rfl⟩

theorem frames_congr {sp' : Space} (h : ∀ v ∈ D, sp'.pte v = sp.pte v) :
    sp'.frames D = sp.frames D := by
  ext p
  constructor
  · rintro ⟨v, hv, rfl⟩
    exact ⟨v, hv, by rw [page, page, h v hv]⟩
  · rintro ⟨v, hv, rfl⟩
    exact ⟨v, hv, by rw [page, page, h v hv]⟩

open Classical in
/-- The space without the entries of `D`. -/
noncomputable def clear (sp : Space) (D : Set Nat) : Space :=
  { sp with pte := fun v => if v ∈ D then 0 else sp.pte v }

theorem clear_of_mem {v : Nat} (hv : v ∈ D) : (sp.clear D).pte v = 0 := if_pos hv

theorem clear_of_not_mem {v : Nat} (hv : v ∉ D) : (sp.clear D).pte v = sp.pte v := if_neg hv

theorem clear_empty (sp : Space) : sp.clear ∅ = sp := by
  simp [clear]

theorem clear_insert (sp : Space) (D : Set Nat) (v : Nat) :
    (sp.clear D).set v 0 = sp.clear (insert v D) := by
  have hpte : ((sp.clear D).set v 0).pte = (sp.clear (insert v D)).pte := by
    funext u
    show Function.update (sp.clear D).pte v 0 u = _
    by_cases hu : u = v
    · subst hu
      rw [Function.update_self, clear_of_mem (Set.mem_insert u D)]
    · rw [Function.update_of_ne hu]
      by_cases hD : u ∈ D
      · rw [clear_of_mem hD, clear_of_mem (Set.mem_insert_of_mem v hD)]
      · rw [clear_of_not_mem hD, clear_of_not_mem (by simp [hu, hD])]
  exact congrArg (Space.mk sp.root sp.tbl) hpte

end Space

/-! ## `uvmunmap` -/

/-- A page that is not mapped is passed over. -/
theorem unmapPage_skip (h : Holds L s.bytes sp) {v : Nat} (hv : v < 2 ^ 20)
    (hz : sp.pte v % 2 = 0) (b : Bool) :
    wp (unmapPage (sp.root * 4096) (v * 4096) b) (fun _ s' => s' = s) s := by
  rw [wp_unmapPage, h.entryAt_eq (by omega), Nat.mul_div_cancel _ (by decide), if_pos hz]

/-- A page that is mapped goes back, and its entry with it. -/
theorem unmapPage_free {v : Nat} (h : Holds L s.bytes sp) (hh : Held s (sp.tables ∪ {sp.page v}))
    (hv : v < 2 ^ 20) (hp : sp.pte v % 2 = 1) (hr : InRange L (sp.page v))
    (hn : sp.page v ∉ sp.tables) :
    wp (unmapPage (sp.root * 4096) (v * 4096) true) (fun _ s' =>
      Holds L s'.bytes (sp.set v 0) ∧ Frame s s' (sp.tables ∪ {sp.page v}) sp.tables) s := by
  have he : sp.entry v ≠ 0 := by
    intro he
    rw [h.no_table v (h.entry_eq_zero.1 he)] at hp
    omega
  obtain ⟨t, ht, heq⟩ := Space.entry_ne he
  have hlt := hr.lt
  have hpa : pte2pa (sp.pte v) = sp.page v * 4096 := by
    rw [pte2pa_eq, Space.page] at *
    omega
  rw [wp_unmapPage, h.entryAt_eq (by omega), h.pteAddr_eq (by omega), Nat.mul_div_cancel _ (by decide),
    if_neg (by omega), if_pos rfl, hpa, heq]
  refine (kfree_spec hr (hh _ (.inr rfl))).mono fun _ s₂ hk => ?_
  have hf := hk.1.widen hh (Set.singleton_subset_iff.2 (.inr rfl))
  rw [Set.empty_union, Set.union_sdiff_cancel_right (by
    rintro p ⟨hp, rfl⟩
    exact hn hp)] at hf
  have h₂ : Holds L s₂.bytes sp := h.frame hk.1 (fun p hp => hh p (.inl hp)) (by
    rintro p hp rfl
    exact hn hp)
  refine ⟨h₂.set ht (by omega), hf.trans ?_⟩
  exact (frame_store (hf.held' t (Space.tbl_mem ht)) (by omega)).widen_self hf.held'
    (Set.singleton_subset_iff.2 (Space.tbl_mem ht))

/-- What is left when the page behind `v` has gone back. -/
theorem Owns.frames_sdiff {v : Nat} (h : Owns L sp D) (hv : v ∈ D) :
    sp.tables ∪ ((sp.tables ∪ sp.frames D) \ (sp.tables ∪ {sp.page v})) =
      sp.tables ∪ sp.frames (D \ {v}) := by
  ext p
  constructor
  · rintro (hp | ⟨hp | ⟨u, hu, rfl⟩, hne⟩)
    · exact .inl hp
    · exact .inl hp
    · refine .inr ⟨u, ⟨hu, ?_⟩, rfl⟩
      rintro rfl
      exact hne (.inr rfl)
  · rintro (hp | ⟨u, ⟨hu, hne⟩, rfl⟩)
    · exact .inl hp
    · refine .inr ⟨.inr ⟨u, hu, rfl⟩, ?_⟩
      rintro (ht | he)
      · exact h.apart u hu ht
      · exact hne (h.inj u hu v hv he)

theorem sep_lt_succ {a k : Nat} (hk : a + k ∈ D) :
    insert (a + k) {v ∈ D | v < a + k} = {v ∈ D | v < a + (k + 1)} := by
  ext u
  constructor
  · rintro (rfl | ⟨hu, hlt⟩)
    · exact ⟨hk, by omega⟩
    · exact ⟨hu, by omega⟩
  · rintro ⟨hu, hlt⟩
    by_cases he : u = a + k
    · exact .inl he
    · exact .inr ⟨hu, by omega⟩

theorem sep_le_succ (a k : Nat) :
    {v ∈ D | a + k ≤ v} \ {a + k} = {v ∈ D | a + (k + 1) ≤ v} := by
  ext u
  constructor
  · rintro ⟨⟨hu, hle⟩, hne⟩
    exact ⟨hu, Nat.lt_of_le_of_ne hle fun he => hne he.symm⟩
  · rintro ⟨hu, hle⟩
    refine ⟨⟨hu, by omega⟩, ?_⟩
    rintro rfl
    omega

/-- **`uvmunmap` with `free`** gives back the pages `D` behind a range. -/
theorem uvmunmap_spec {a n : Nat} (h : Holds L s.bytes sp) (ho : Owns L sp D)
    (hh : Held s (sp.tables ∪ sp.frames D)) (hn : a + n < 2 ^ 20)
    (hD : ∀ v ∈ D, a ≤ v ∧ v < a + n)
    (hz : ∀ v, a ≤ v → v < a + n → v ∉ D → sp.pte v % 2 = 0) :
    wp (uvmunmap (sp.root * 4096) (a * 4096) (n * 4096) true) (fun _ s' =>
      Holds L s'.bytes (sp.clear D) ∧ Frame s s' (sp.tables ∪ sp.frames D) sp.tables) s := by
  -- after `k` rounds the pages of `D` below `a + k` are gone
  let I : Nat → Mem L → Prop := fun k s₁ => Holds L s₁.bytes (sp.clear {v ∈ D | v < a + k}) ∧
    Frame s s₁ (sp.tables ∪ sp.frames D) (sp.tables ∪ sp.frames {v ∈ D | a + k ≤ v})
  have hlt0 : {v ∈ D | v < a + 0} = ∅ := by
    ext v
    exact ⟨fun hv => absurd (hD v hv.1).1 (by have := hv.2; omega), False.elim⟩
  have hle0 : {v ∈ D | a + 0 ≤ v} = D := by
    ext v
    exact ⟨fun hv => hv.1, fun hv => ⟨hv, (hD v hv).1⟩⟩
  have hltn : {v ∈ D | v < a + n} = D := by
    ext v
    exact ⟨fun hv => hv.1, fun hv => ⟨hv, (hD v hv).2⟩⟩
  have hlen : {v ∈ D | a + n ≤ v} = ∅ := by
    ext v
    exact ⟨fun hv => absurd (hD v hv.1).2 (by have := hv.2; omega), False.elim⟩
  refine (uvmunmap_rule (I := I) hn ⟨by rwa [hlt0, sp.clear_empty], by rw [hle0]; exact .refl hh⟩
    fun k hk s₁ hI => ?_).mono fun _ s' hI => ?_
  · obtain ⟨h₁, hf₁⟩ := hI
    have hpte : (sp.clear {v ∈ D | v < a + k}).pte (a + k) = sp.pte (a + k) :=
      Space.clear_of_not_mem fun hm => Nat.lt_irrefl _ hm.2
    by_cases hm : a + k ∈ D
    · have hm' : a + k ∈ {v ∈ D | a + k ≤ v} := ⟨hm, Nat.le_refl _⟩
      have hpage : (sp.clear {v ∈ D | v < a + k}).page (a + k) = sp.page (a + k) := by
        rw [Space.page, hpte, Space.page]
      have hsub : sp.tables ∪ {sp.page (a + k)} ⊆ sp.tables ∪ sp.frames {v ∈ D | a + k ≤ v} :=
        Set.union_subset_union_right _ (Set.singleton_subset_iff.2 ⟨_, hm', rfl⟩)
      refine (unmapPage_free (v := a + k) h₁ ?_ (by omega) ?_ ?_ ?_).mono fun _ s₂ hu => ?_
      · rw [hpage]
        exact fun p hp => hf₁.held' p (hsub hp)
      · rw [hpte]
        exact ho.valid _ hm
      · rw [hpage]
        exact ho.range _ hm
      · rw [hpage]
        exact ho.apart _ hm
      · obtain ⟨h₂, hf₂⟩ := hu
        rw [hpage] at hf₂
        rw [Space.clear_insert, sep_lt_succ hm] at h₂
        have hf₃ := hf₂.widen hf₁.held' hsub
        have hfs := (ho.subset (Set.sep_subset D (a + k ≤ ·))).frames_sdiff hm'
        rw [sep_le_succ] at hfs
        rw [show (sp.clear {v ∈ D | v < a + k}).tables = sp.tables from rfl, hfs] at hf₃
        exact ⟨h₂, hf₁.trans hf₃⟩
    · refine (unmapPage_skip h₁ (v := a + k) (by omega) ?_ true).mono fun _ s₂ hu => ?_
      · rw [hpte]
        exact hz _ (by omega) (by omega) hm
      · subst hu
        have hlt : {v ∈ D | v < a + (k + 1)} = {v ∈ D | v < a + k} := by
          ext v
          refine ⟨fun hv => ⟨hv.1, ?_⟩, fun hv => ⟨hv.1, Nat.lt_succ_of_lt hv.2⟩⟩
          exact Nat.lt_of_le_of_ne (Nat.le_of_lt_succ hv.2) fun he => hm (he ▸ hv.1)
        have hle : {v ∈ D | a + (k + 1) ≤ v} = {v ∈ D | a + k ≤ v} := by
          ext v
          refine ⟨fun hv => ⟨hv.1, Nat.le_of_lt hv.2⟩, fun hv => ⟨hv.1, ?_⟩⟩
          exact Nat.lt_of_le_of_ne hv.2 fun he => hm (by rw [show a + k = v from he]; exact hv.1)
        exact ⟨by rwa [hlt], by rwa [hle]⟩
  · obtain ⟨h₁, hf₁⟩ := hI
    rw [hltn] at h₁
    rw [hlen, sp.frames_empty, Set.union_empty] at hf₁
    exact ⟨h₁, hf₁⟩

/-! ## `uvmfree` -/

/-- The virtual pages of a user image of size `sz`. -/
def imagePages (sz : Nat) : Set Nat := Set.Ico 1 (sz / 4096)

/-- The virtual page of the user stack. -/
abbrev stackPage : Nat := 0xFFFFC

/-- `sp` maps some of the pages of an image of size `sz` and of its stack, namely `D`, to
pages of its own. -/
structure Within (L : Layout) (sp : Space) (sz : Nat) (D : Set Nat) : Prop where
  owns : Owns L sp D
  sub : D ⊆ imagePages sz ∪ {stackPage}
  rest : ∀ v ∈ imagePages sz ∪ {stackPage}, v ∉ D → sp.pte v % 2 = 0

/-- `uvmunmap` on a range, where the pages `D` of the range and others are mapped. -/
theorem uvmunmap_part {a n : Nat} (h : Holds L s.bytes sp) (ho : Owns L sp D)
    (hh : Held s (sp.tables ∪ sp.frames D)) (hn : a + n < 2 ^ 20)
    (hz : ∀ v, a ≤ v → v < a + n → v ∉ D → sp.pte v % 2 = 0) :
    wp (uvmunmap (sp.root * 4096) (a * 4096) (n * 4096) true) (fun _ s' =>
      Holds L s'.bytes (sp.clear {v ∈ D | a ≤ v ∧ v < a + n}) ∧
        Frame s s' (sp.tables ∪ sp.frames D)
          (sp.tables ∪ sp.frames {v ∈ D | ¬(a ≤ v ∧ v < a + n)})) s := by
  have hsub : {v ∈ D | a ≤ v ∧ v < a + n} ⊆ D := Set.sep_subset _ _
  have hfsub : sp.tables ∪ sp.frames {v ∈ D | a ≤ v ∧ v < a + n} ⊆ sp.tables ∪ sp.frames D :=
    Set.union_subset_union_right _ (Space.frames_mono hsub)
  refine wp.mono (uvmunmap_spec h (ho.subset hsub) (fun p hp => hh p (hfsub hp)) hn
    (fun v hv => hv.2) fun v h1 h2 hv => hz v h1 h2 fun hD => hv ⟨hD, h1, h2⟩) fun _ s₁ hu => ?_
  refine ⟨hu.1, ?_⟩
  have hw := hu.2.widen hh hfsub
  convert hw using 1
  ext p
  constructor
  · rintro (hp | ⟨v, ⟨hv, hne⟩, rfl⟩)
    · exact .inl hp
    · refine .inr ⟨.inr ⟨v, hv, rfl⟩, ?_⟩
      rintro (ht | ⟨u, ⟨hu, hin⟩, he⟩)
      · exact ho.apart v hv ht
      · exact hne (ho.inj u hu v hv he ▸ hin)
  · rintro (hp | ⟨hp | ⟨v, hv, rfl⟩, hne⟩)
    · exact .inl hp
    · exact .inl hp
    · exact .inr ⟨v, ⟨hv, fun hin => hne (.inr ⟨v, ⟨hv, hin⟩, rfl⟩)⟩, rfl⟩

/-- The end of `uvmfree`, when only the stack is left. -/
theorem uvmfree_stack (h : Holds L s.bytes sp) (ho : Owns L sp D) (hD : D ⊆ {stackPage})
    (hz : stackPage ∉ D → sp.pte stackPage % 2 = 0) (hh : Held s (sp.tables ∪ sp.frames D)) :
    wp (do
      uvmunmap (sp.root * 4096) stackVa PAGE_SIZE true
      freewalk (sp.root * 4096)) (fun _ s' => Frame s s' (sp.tables ∪ sp.frames D) ∅) s := by
  rw [wp_bind]
  refine (uvmunmap_spec (a := stackPage) (n := 1) h ho hh (by decide) ?_ ?_).mono fun _ s₁ hu => ?_
  · intro v hv
    rw [hD hv]
    omega
  · intro v h1 h2 hv
    obtain rfl : v = stackPage := by omega
    exact hz hv
  · exact (freewalk_spec hu.1 hu.2.held').mono fun _ s₂ hw => hu.2.trans hw

/-- **`uvmfree` gives back every page of a space**, whichever pages of the image and of
the stack it maps. -/
theorem uvmfree_spec {sz : Nat} (h : Holds L s.bytes sp) (hw : Within L sp sz D)
    (hh : Held s (sp.tables ∪ sp.frames D)) (ha : sz % 4096 = 0) (hsz : sz ≤ UART_0) :
    wp (uvmfree (sp.root * 4096) sz) (fun _ s' => Frame s s' (sp.tables ∪ sp.frames D) ∅) s := by
  unfold uvmfree
  simp only [UART_0] at hsz
  rw [if_neg (by simp only [PAGE_SIZE]; omega)]
  have hstack : stackPage ∉ imagePages sz := by
    rintro ⟨-, hlt⟩
    simp only [stackPage] at hlt
    omega
  by_cases hgt : sz > USER_BASE
  · rw [if_pos hgt]
    simp only [USER_BASE] at hgt
    have hlen : sz - USER_BASE = (sz / 4096 - 1) * 4096 := by
      simp only [USER_BASE]
      omega
    rw [hlen, wp_bind]
    have himage : ∀ v, (1 ≤ v ∧ v < 1 + (sz / 4096 - 1)) ↔ v ∈ imagePages sz := by
      intro v
      show _ ↔ 1 ≤ v ∧ v < sz / 4096
      omega
    refine (uvmunmap_part (a := 1) (n := sz / 4096 - 1) h hw.owns hh (by omega) ?_).mono
      fun _ s₁ hu => ?_
    · intro v h1 h2 hv
      exact hw.rest v (.inl ((himage v).1 ⟨h1, h2⟩)) hv
    · obtain ⟨h₁, hf₁⟩ := hu
      simp only [himage] at h₁ hf₁
      have hsame : ∀ v ∈ {v ∈ D | v ∉ imagePages sz},
          (sp.clear {v ∈ D | v ∈ imagePages sz}).pte v = sp.pte v :=
        fun v hv => Space.clear_of_not_mem fun hm => hv.2 hm.2
      have ho₁ : Owns L (sp.clear {v ∈ D | v ∈ imagePages sz}) {v ∈ D | v ∉ imagePages sz} :=
        (hw.owns.subset (Set.sep_subset _ _)).congr hsame fun v hv => hw.owns.apart v hv.1
      rw [← Space.frames_congr hsame] at hf₁
      refine (uvmfree_stack h₁ ho₁ ?_ ?_ hf₁.held').mono fun _ s₂ hs => hf₁.trans hs
      · rintro v ⟨hv, hn⟩
        exact (hw.sub hv).resolve_left hn
      · intro hn
        rw [Space.clear_of_not_mem fun hm => hstack hm.2]
        exact hw.rest _ (.inr rfl) fun hD => hn ⟨hD, hstack⟩
  · rw [if_neg hgt]
    simp only [USER_BASE] at hgt
    refine uvmfree_stack h hw.owns ?_ ?_ hh
    · intro v hv
      refine (hw.sub hv).resolve_left fun hm => ?_
      have := hm.1
      have := hm.2
      omega
    · exact hw.rest _ (.inr rfl)

/-! ## `uvmalloc` -/

/-- `sp'` is `sp` with the `n` virtual pages from `a` on mapped to new pages: page `v` with
the flags `f v` and, at offset `o`, the byte `c v o`. -/
structure Filled (s s' : Mem L) (sp sp' : Space) (a n : Nat) (f : Nat → Nat)
    (c : Nat → Nat → UInt8) : Prop where
  grows : sp.Grows sp'
  holds : Holds L s'.bytes sp'
  frame : Frame s s' sp.tables (sp'.tables ∪ sp'.frames (Set.Ico a (a + n)))
  owns : Owns L sp' (Set.Ico a (a + n))
  flags : ∀ v ∈ Set.Ico a (a + n), sp'.pte v % 1024 = f v ||| 1
  bytes : ∀ v ∈ Set.Ico a (a + n), ∀ o < 4096, s'.bytes (sp'.page v * 4096 + o) = c v o
  other : ∀ v, v ∉ Set.Ico a (a + n) → sp'.pte v = sp.pte v

variable {sp' : Space} {a n k : Nat} {f : Nat → Nat} {c : Nat → Nat → UInt8}

theorem Filled.refl (h : Holds L s.bytes sp) (hh : Held s sp.tables) (a : Nat) (f : Nat → Nat)
    (c : Nat → Nat → UInt8) : Filled s s sp sp a 0 f c where
  grows := .refl sp
  holds := h
  frame := by
    rw [Nat.add_zero, Set.Ico_self, sp.frames_empty, Set.union_empty]
    exact .refl hh
  owns := by
    rw [Nat.add_zero, Set.Ico_self]
    exact .empty sp
  flags v hv := absurd hv.2 (Nat.not_lt.2 hv.1)
  bytes v hv := absurd hv.2 (Nat.not_lt.2 hv.1)
  other _ _ := rfl

theorem mem_Ico_succ {v : Nat} : v ∈ Set.Ico a (a + (k + 1)) ↔ v = a + k ∨ v ∈ Set.Ico a (a + k) := by
  simp only [Set.mem_Ico]
  omega

/-- One more page: `q`, which was free, gets its bytes and is mapped. -/
theorem Filled.succ {s₁ s₂ s₃ : Mem L} {sp₁ sp₂ : Space} {q : Nat}
    (h : Filled s s₁ sp sp₁ a k f c) (hf : f (a + k) < 1024) (hq : s₁.free q)
    (hf₂ : Frame s₁ s₂ ∅ {q}) (hc : ∀ o < 4096, s₂.bytes (q * 4096 + o) = c (a + k) o)
    (hg : sp₁.Grows sp₂)
    (hp : sp₂.pte = Function.update sp₁.pte (a + k) (q * 1024 + (f (a + k) ||| 1)))
    (h₃ : Holds L s₃.bytes sp₂) (hf₃ : Frame s₂ s₃ sp₁.tables sp₂.tables) :
    Filled s s₃ sp sp₂ a (k + 1) f c := by
  have hlt : f (a + k) ||| 1 < 2 ^ 10 := Nat.or_lt_two_pow hf (by decide)
  have hodd := or_one_mod (f (a + k))
  have hheld := h.frame.held'
  have hB₂ : Held s₂ (sp₁.tables ∪ sp₁.frames (Set.Ico a (a + k))) := hf₂.held hheld fun _ _ => id
  have hq₂ : ¬s₂.free q := hf₂.held' q rfl
  have hqB : q ∉ sp₁.tables ∪ sp₁.frames (Set.Ico a (a + k)) := fun hm => hheld q hm hq
  have hnew : sp₂.pte (a + k) = q * 1024 + (f (a + k) ||| 1) := by rw [hp, Function.update_self]
  have hold : ∀ v, v ≠ a + k → sp₂.pte v = sp₁.pte v := fun v hv => by
    rw [hp, Function.update_of_ne hv]
  have hpage : sp₂.page (a + k) = q := by
    rw [Space.page, hnew]
    omega
  have hpage' : ∀ v ∈ Set.Ico a (a + k), sp₂.page v = sp₁.page v := fun v hv => by
    have := hv.2
    rw [Space.page, hold v (by omega), Space.page]
  -- the pages that are kept out of the footprint of `mappages`
  have hR : ∀ p ∈ {q} ∪ sp₁.frames (Set.Ico a (a + k)), ¬s₂.free p ∧ p ∉ sp₁.tables := by
    rintro p (rfl | ⟨v, hv, rfl⟩)
    · exact ⟨hq₂, fun hm => hqB (.inl hm)⟩
    · exact ⟨hB₂ _ (.inr ⟨v, hv, rfl⟩), h.owns.apart v hv⟩
  have hR' : ∀ p ∈ {q} ∪ sp₁.frames (Set.Ico a (a + k)), p ∉ sp₂.tables :=
    hf₃.not_mem (fun p hp => (hR p hp).1) fun p hp => (hR p hp).2
  have hsame : ∀ v ∈ Set.Ico a (a + k), SamePage s₁.bytes s₃.bytes (sp₁.page v) := fun v hv =>
    (hf₂.same _ (hheld _ (.inr ⟨v, hv, rfl⟩)) id).trans
      (hf₃.same _ (hR _ (.inr ⟨v, hv, rfl⟩)).1 (hR _ (.inr ⟨v, hv, rfl⟩)).2)
  have hIco : Set.Ico a (a + (k + 1)) = {a + k} ∪ Set.Ico a (a + k) := Set.ext fun _ => mem_Ico_succ
  have hkept : sp₂.frames (Set.Ico a (a + k)) = sp₁.frames (Set.Ico a (a + k)) :=
    Space.frames_congr fun v hv => hold v (Nat.ne_of_lt hv.2)
  refine ⟨h.grows.trans hg, h₃, ?_, ?_, ?_, ?_, ?_⟩
  · have e₁ := hf₂.widen hheld (Set.empty_subset _)
    have e₂ := hf₃.frame hR
    rw [Set.sdiff_empty, Set.union_left_comm] at e₁
    rw [hIco, Space.frames_union, Space.frames_singleton, hpage, hkept]
    exact h.frame.trans (e₁.trans e₂)
  · have hone : Owns L sp₂ {a + k} := by
      refine .singleton (by rw [hnew]; omega) ?_ ?_ <;> rw [hpage]
      · exact hq.inRange
      · exact hR' q (.inl rfl)
    have hrest : Owns L sp₂ (Set.Ico a (a + k)) :=
      h.owns.congr (fun v hv => hold v (Nat.ne_of_lt hv.2)) fun v hv => hR' _ (.inr ⟨v, hv, rfl⟩)
    rw [hIco]
    refine hone.union hrest ?_
    rintro _ rfl hm
    rw [hpage, hkept] at hm
    exact hqB (.inr hm)
  · intro v hv
    rcases mem_Ico_succ.1 hv with rfl | hv
    · rw [hnew]
      omega
    · rw [hold v (Nat.ne_of_lt hv.2)]
      exact h.flags v hv
  · intro v hv o ho
    rcases mem_Ico_succ.1 hv with rfl | hv
    · rw [hpage, hf₃.same q hq₂ (hR q (.inl rfl)).2 o ho, hc o ho]
    · rw [hpage' v hv, hsame v hv o ho, h.bytes v hv o ho]
  · intro v hv
    have hne : v ≠ a + k := fun he => hv (mem_Ico_succ.2 (.inl he))
    rw [hold v hne]
    exact h.other v fun hm => hv (mem_Ico_succ.2 (.inr hm))

/-- Pages that are free do not matter. -/
theorem Filled.frame_free {s₁ s₂ : Mem L} {sp₁ : Space} (h : Filled s s₁ sp sp₁ a k f c)
    (hf : Frame s₁ s₂ ∅ ∅) : Filled s s₂ sp sp₁ a k f c where
  grows := h.grows
  holds := h.holds.frame hf (fun p hp => h.frame.held' p (.inl hp)) fun _ _ => id
  frame := h.frame.trans (hf.widen_self h.frame.held' (Set.empty_subset _))
  owns := h.owns
  flags := h.flags
  bytes v hv o ho := by
    rw [hf.same _ (h.frame.held' _ (.inr ⟨v, hv, rfl⟩)) id o ho, h.bytes v hv o ho]
  other := h.other

/-- The pages of a table and the pages behind a range are few. -/
theorem Holds.pages_card (h : Holds L s.bytes sp) (a k : Nat) : ∃ G : Finset Nat,
    G.card ≤ 1025 + k ∧ ∀ p ∈ sp.tables ∪ sp.frames (Set.Ico a (a + k)), p ∈ G := by
  obtain ⟨G, hG, hmem⟩ := h.tables_card
  refine ⟨G ∪ (Finset.range k).image fun i => sp.page (a + i), ?_, ?_⟩
  · refine (Finset.card_union_le _ _).trans ?_
    have := Finset.card_image_le (s := Finset.range k) (f := fun i => sp.page (a + i))
    rw [Finset.card_range] at this
    omega
  · rintro p (hp | ⟨v, ⟨h1, h2⟩, rfl⟩)
    · exact Finset.mem_union_left _ (hmem p hp)
    · refine Finset.mem_union_right _ (Finset.mem_image.2 ⟨v - a, Finset.mem_range.2 (by omega), ?_⟩)
      rw [show a + (v - a) = v by omega]

theorem Filled.few {s₁ : Mem L} {sp₁ : Space} {j : Nat} (h : Filled s s₁ sp sp₁ a k f c)
    (hj : Few s₁.free j) : Few s.free (j + 1025 + k) := by
  obtain ⟨G, hG, hmem⟩ := h.holds.pages_card a k
  exact (hj.of_footprint h.frame hmem).mono (by omega)

/-- `sp'` maps what `sp` maps: all that has changed is that it may have more tables. -/
structure Undone (s s' : Mem L) (sp sp' : Space) (a n : Nat) : Prop where
  grows : sp.Grows sp'
  holds : Holds L s'.bytes sp'
  frame : Frame s s' sp.tables sp'.tables
  pte : ∀ v, sp'.pte v = sp.pte v ∨ (v ∈ Set.Ico a (a + n) ∧ sp'.pte v = 0)

/-- `uvmalloc` gives back what it has mapped so far. -/
theorem Filled.undo {s₁ : Mem L} {sp₁ : Space} (h : Filled s s₁ sp sp₁ a k f c) (hk : k ≤ n)
    (hn : a + n < 2 ^ 20) :
    wp (uvmunmap (sp.root * 4096) (a * 4096) (k * 4096) true) (fun _ s' =>
      ∃ sp', Undone s s' sp sp' a n) s₁ := by
  rw [← h.grows.root]
  refine wp.mono (uvmunmap_spec h.holds h.owns h.frame.held' (by omega) (fun v hv => hv)
    fun v h1 h2 hv => absurd ⟨h1, h2⟩ hv) fun _ s₂ hu => ?_
  refine ⟨sp₁.clear (Set.Ico a (a + k)), ⟨h.grows.root, h.grows.tbl⟩, hu.1, h.frame.trans hu.2,
    fun v => ?_⟩
  by_cases hv : v ∈ Set.Ico a (a + k)
  · exact .inr ⟨⟨hv.1, Nat.lt_of_lt_of_le hv.2 (by omega)⟩, Space.clear_of_mem hv⟩
  · rw [Space.clear_of_not_mem hv]
    exact .inl (h.other v hv)

/-- **`uvmalloc` maps the whole range to pages of zeros, or nothing of it.** -/
theorem uvmalloc_spec {oldsz newsz xperm : Nat} (h : Holds L s.bytes sp) (hh : Held s sp.tables)
    (hle : oldsz ≤ newsz) (ha : pgRoundUp oldsz = a * 4096) (hn : a + n < 2 ^ 20)
    (hnew : ∀ k, (a + k) * 4096 < newsz ↔ k < n) (hx : xperm < 1024)
    (hz : ∀ v ∈ Set.Ico a (a + n), sp.pte v % 2 = 0) :
    wp (uvmalloc (sp.root * 4096) oldsz newsz xperm) (fun r s' =>
      (r = newsz ∧ ∃ sp', Filled s s' sp sp' a n (fun _ => PTE_R ||| PTE_U ||| xperm)
        fun _ _ => 0) ∨
        (r = 0 ∧ Few s.free (2051 + n) ∧ ∃ sp', Undone s s' sp sp' a n)) s := by
  have hf : PTE_R ||| PTE_U ||| xperm < 2 ^ 10 := Nat.or_lt_two_pow (by decide) hx
  refine (uvmalloc_rule (I := fun k s₁ => ∃ sp₁, Filled s s₁ sp sp₁ a k
    (fun _ => PTE_R ||| PTE_U ||| xperm) fun _ _ => 0)
    (R := fun s' => Few s.free (2051 + n) ∧ ∃ sp', Undone s s' sp sp' a n) hle ha hn hnew
    ⟨sp, .refl h hh a _ _⟩ ?_ ?_ ?_).mono fun _ _ => id
  · rintro k s₁ s₂ ⟨sp₁, hfill⟩ hf₁
    exact ⟨sp₁, hfill.frame_free hf₁⟩
  · rintro k hk s₁ s₂ q ⟨sp₁, hfill⟩ hq hf₂ hz₂
    have hql := hq.inRange.lt
    have hT : Held s₁ sp₁.tables := fun p hp => hfill.frame.held' p (.inl hp)
    have hinv : sp₁.pte (a + k) % 2 = 0 := by
      rw [hfill.other (a + k) fun hm => Nat.lt_irrefl _ hm.2]
      exact hz _ ⟨by omega, by omega⟩
    rw [← hfill.grows.root]
    refine (mappage_spec (q := q) (hfill.holds.frame hf₂ hT fun _ _ => id)
      (hf₂.held hT fun _ _ => id) (by omega) (by omega) hf hinv).mono fun r s₃ hr => ?_
    rcases hr with hr | ⟨hne, sp₂, hg, hp, h₃, hf₃⟩
    · exact .inl hr
    · exact .inr ⟨hne, sp₂, hfill.succ hf hq hf₂ hz₂ hg hp h₃ hf₃⟩
  · rintro k hk s₁ ⟨sp₁, hfill⟩ hfew
    exact (hfill.undo hk.le hn).mono fun _ s' hu => ⟨(hfill.few hfew).mono (by omega), hu⟩

end Wl00.Vm
